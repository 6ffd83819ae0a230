import Flatstate.Consensus.Backfill

set_option autoImplicit false

/-!
# Consensus: the published head follows the preference

`emitHead` announces a hash only if it is not the last one it announced, and an acceptance
may replace the published stack behind its back.  No head that is needed is swallowed: an
acceptance that replaces the stack accepts a block which the last head does not stand on, and
from then on every preference stands on that block, so its hash is another one (`Aims`).
Blocks are compared by hash, so two containers around one block do no harm.
-/

namespace Flatstate.Consensus

open Foundation Schema Capture Node

variable {T P V N ρ : Type} {S : Setup T P V N ρ} {U : Container → Prop}

/-! ## Blocks on top of each other -/

/-- The block `a` is the other one or an ancestor of it, by the headers of delivered
containers. -/
inductive Under (U : Container → Prop) (a : Hash) : Hash → Prop where
  | self : Under U a a
  | up {c p : Container} (hc : U c) (hp : U p) (hlink : c.eth.parentHash = p.eth.hash)
      (hnum : c.eth.number.toNat = p.eth.number.toNat + 1) (h : Under U a p.eth.hash) :
      Under U a c.eth.hash

namespace Under

variable {a b h : Hash}

theorem number_le (hU : HeadersByHash U) (hu : Under U a h) :
    numberOf U a ≤ numberOf U h ∧ (numberOf U a = numberOf U h → a = h) := by
  induction hu with
  | self => exact ⟨Nat.le_refl _, fun _ => rfl⟩
  | up hc hp hlink hnum _ ih =>
    rw [numberOf_eq hU hp] at ih
    rw [numberOf_eq hU hc, hnum]
    exact ⟨by omega, fun heq => absurd heq (by omega)⟩

/-- A block has one ancestor of each number. -/
theorem unique (hU : HeadersByHash U) (ha : Under U a h) (hb : Under U b h)
    (hn : numberOf U a = numberOf U b) : a = b := by
  induction ha with
  | self => exact ((hb.number_le hU).2 hn.symm).symm
  | @up c p hc hp hlink hnum hup ih =>
    have hlt : numberOf U a < numberOf U c.eth.hash := by
      have hle := (hup.number_le hU).1
      rw [numberOf_eq hU hp] at hle
      rw [numberOf_eq hU hc]
      omega
    generalize hx : c.eth.hash = x at hb hlt
    cases hb with
    | self => omega
    | @up c' p' hc' hp' hlink' _ hup' =>
      -- the same block, so the same parent
      have hpar := (hU c c' hc hc' hx).1
      rw [hlink, hlink'] at hpar
      exact ih (hpar ▸ hup')

/-- What stands on a block stands on its parent. -/
theorem pred {c p : Container} (hc : U c) (hp : U p) (hlink : c.eth.parentHash = p.eth.hash)
    (hnum : c.eth.number.toNat = p.eth.number.toNat + 1) (hu : Under U c.eth.hash h) :
    Under U p.eth.hash h := by
  generalize hx : c.eth.hash = x at hu
  induction hu with
  | self =>
    rw [← hx]
    exact .up hc hp hlink hnum .self
  | up hc' hp' hlink' hnum' _ ih => exact .up hc' hp' hlink' hnum' ih

end Under

/-- The top of a chain stands on the block below it. -/
theorem linked_under {bs : List Batch} {h : Hash} {n : Nat} (hl : Linked h n bs)
    (hT : ∀ b ∈ bs, Heads U b) : Under U h ((bs.getLast?.map Batch.hash).getD h) := by
  induction bs generalizing h n with
  | nil => exact .self
  | cons b bs ih =>
    obtain ⟨rfl, -, hl⟩ := hl
    obtain ⟨hb, hbs⟩ := List.forall_mem_cons.mp hT
    have htop := ih hl hbs
    obtain ⟨c, p, hc, hp, hh, hpar, -, hlink, hnum⟩ := hb
    have hlast : ((b :: bs).getLast?.map Batch.hash).getD b.parent =
        (bs.getLast?.map Batch.hash).getD b.hash := by
      rw [List.getLast?_cons]
      cases bs.getLast? <;> rfl
    rw [hlast, hpar]
    rw [hh] at htop ⊢
    exact Under.pred hc hp hlink hnum htop

/-! ## Between two announcements -/

/-- The top of the stack is what was announced last, or that does not stand on the accepted
block any more. -/
def Core.Aims (U : Container → Prop) (c : Core T) : Prop :=
  c.host.tracker.top = c.lastPref ∨ ¬ Under U c.lastAcceptedEthHash c.lastPref

/-- The last accepted hash is that of the last accepted container. -/
def Core.Named (U : Container → Prop) (c : Core T) : Prop :=
  ∃ con, U con ∧ con.id = c.lastAcceptedID ∧ con.eth.hash = c.lastAcceptedEthHash

/-- How things stand between two callbacks of `RecordPoll`. -/
structure HeadMid (U : Container → Prop) (Tag : Batch → Prop) (t : Tree) (c : Core T) : Prop where
  mid : Mid U Tag t c
  aims : c.Aims U
  named : c.Named U

section Steps

variable {Tag : Batch → Prop} {t : Tree} {c : Core T}

/-- A child of the accepted block that is not the oldest published one is not under the top
of the stack. -/
theorem Mid.not_under_top (h : Mid U Tag t c) (hU : HeadersByHash U) (hT : ∀ b, Tag b → Heads U b)
    {con : Container} (hcon : U con)
    (hnum : con.eth.number.toNat = c.lastAcceptedHeight.toNat + 1)
    (hhead : c.host.tracker.stack.head?.map Batch.hash ≠ some con.eth.hash) :
    ¬ Under U con.eth.hash c.host.tracker.top := by
  intro hu
  have hpub := h.published
  rw [Tracker.top] at hu
  cases hs : c.host.tracker.stack with
  | nil =>
    rw [hs] at hu
    have hle := (Under.number_le hU hu).1
    have hfin : numberOf U c.host.tracker.finalizedHash = c.lastAcceptedHeight.toNat := by
      rw [← hpub.finalized, h.height]
    rw [numberOf_eq hU hcon] at hle
    simp only [List.getLast?_nil, Option.map_none, Option.getD_none] at hle
    omega
  | cons b rest =>
    have hlinked := hpub.linked
    have hstack := hpub.stack
    rw [hs] at hu hhead hlinked hstack
    obtain ⟨-, hblock, hrest⟩ := hlinked
    obtain ⟨hb, hbs⟩ := List.forall_mem_cons.mp hstack
    have hbu : Under U b.hash (((b :: rest).getLast?.map Batch.hash).getD c.host.tracker.finalizedHash) := by
      have hlast : ((b :: rest).getLast?.map Batch.hash).getD c.host.tracker.finalizedHash =
          (rest.getLast?.map Batch.hash).getD b.hash := by
        rw [List.getLast?_cons]
        cases rest.getLast? <;> rfl
      rw [hlast]
      exact linked_under hrest (fun b' hb' => hT b' (hbs b' hb'))
    have hbn : numberOf U b.hash = numberOf U con.eth.hash := by
      rw [← (determines_heads hU hT).block b hb, hblock, h.height, numberOf_eq hU hcon, hnum]
    exact hhead (congrArg some (Under.unique hU hbu hu hbn))

theorem HeadMid.onAccept (h : HeadMid U Tag t c) (hU : HeadersByHash U)
    (hT : ∀ b, Tag b → Heads U b) {con : Container} (hproc : t.procs con.id = some con)
    (hpar : con.parentID = t.last) :
    ((c.onAccept con).1 = .ok () ∧ HeadMid U Tag (t.accept con) (c.onAccept con).2) ∨
      (c.onAccept con).1 = .error (.sink (.bus .txn)) := by
  refine (h.mid.onAccept hU hT hproc hpar).imp_left (fun ⟨hok, hmid, _⟩ => ⟨hok, hmid, ?_, ?_⟩)
  · obtain ⟨r, hr, hi, rfl⟩ := (h.mid.procs _ con).mp hproc
    obtain ⟨-, hrU⟩ := h.mid.recs _ r hr
    obtain ⟨hph, hnum⟩ := h.mid.onLast _ r hr hi (by rw [hpar, h.mid.last])
    obtain ⟨last, hlast, hlh, hln⟩ := h.mid.lastU
    have hres : c.host.tracker.accepted c.host.sink r.c.eth.number r.c.eth.hash =
        (.ok (), (c.onAccept r.c).2.host.tracker, (c.onAccept r.c).2.host.sink) :=
      Prod.ext hok rfl
    -- what stood on the block stood on its parent
    have hstale : ¬ Under U c.lastAcceptedEthHash c.lastPref →
        ¬ Under U r.c.eth.hash c.lastPref := by
      intro hno hu
      rw [← hlh] at hno hph
      exact hno (Under.pred hrU hlast hph (by rw [hnum, hln]) hu)
    rcases accepted_top hres with ⟨-, htop⟩ | ⟨hhead, htop⟩
    · rcases h.aims with htop0 | hno
      · exact .inl (htop.trans htop0)
      · exact .inr (hstale hno)
    · right
      rcases h.aims with htop0 | hno
      · have hnot := h.mid.not_under_top hU hT hrU hnum hhead
        rw [htop0] at hnot
        exact hnot
      · exact hstale hno
  · obtain ⟨r, hr, -, rfl⟩ := (h.mid.procs _ con).mp hproc
    exact ⟨r.c, (h.mid.recs _ r hr).2, rfl, rfl⟩

theorem HeadMid.onReject (h : HeadMid U Tag t c) (con : Container) :
    HeadMid U Tag (t.reject con) (c.onReject con) :=
  ⟨h.mid.onReject con, h.aims, h.named⟩

/-! ## After an announcement -/

/-- What was announced last is the preference, and it is what is published. -/
structure Tracks (S : Setup T P V N ρ) (U : Container → Prop) (c : Core T) : Prop where
  preferred : c.prefHash S = some c.lastPref
  top : c.host.tracker.top = c.lastPref
  named : c.Named U

theorem Tracks.headMid {tree : T → Tree} (h : Tracks S U c) (hinv : CoreInv U Tag tree c) :
    HeadMid U Tag (tree c.cons) c :=
  ⟨hinv.mid, .inl h.top, h.named⟩

/-- The preference has a hash, which stands on the accepted block. -/
theorem CoreInv.prefHash {tree : T → Tree} (h : CoreInv U Tag tree c) (hS : S.topo.Contract tree)
    (hU : HeadersByHash U) (hT : ∀ b, Tag b → Heads U b) :
    ∃ hash es, c.prefHash S = some hash ∧
      c.host.tracker.table.Path Batch.parent c.host.tracker.finalizedHash hash es ∧
      Under U c.lastAcceptedEthHash hash := by
  have hdesc : (tree c.cons).Descends (S.topo.preference c.cons) := by
    rcases hS.preference c.cons with hlast | hproc
    · rw [hlast]
      exact .last
    · obtain ⟨con, hcon⟩ := Option.ne_none_iff_exists'.mp hproc
      exact h.rooted _ con hcon
  obtain ⟨hash, hof, -, es, hpath⟩ := h.mid.descends hU hT hdesc
  obtain ⟨hl, htag, hlast, -⟩ := h.mid.published.linked_path (determines_heads hU hT) hpath
  have hunder := linked_under hl (fun b hb => hT b (htag b hb))
  rw [hlast, h.mid.hash] at hunder
  exact ⟨hash, es, h.mid.prefHash hof, hpath, hunder⟩

theorem prefHash_congr {c' : Core T} (hc : c'.cons = c.cons)
    (hid : c'.lastAcceptedID = c.lastAcceptedID)
    (hh : c'.lastAcceptedEthHash = c.lastAcceptedEthHash)
    (hr : S.topo.preference c.cons ≠ c.lastAcceptedID →
      c'.recs.get (S.topo.preference c.cons) = c.recs.get (S.topo.preference c.cons)) :
    c'.prefHash S = c.prefHash S := by
  rw [Core.prefHash, Core.prefHash, hc, hid, hh]
  split
  · rfl
  · rename_i hne
    rw [hr hne]

/-- `emitHead` without a failure. -/
theorem HeadMid.emitHead {tree : T → Tree} (h : HeadMid U Tag (tree c.cons) c)
    (hinv : CoreInv U Tag tree c) (hS : S.topo.Contract tree) (hU : HeadersByHash U)
    (hT : ∀ b, Tag b → Heads U b) (hf : (c.emitHead S).fatal = []) :
    Tracks S U (c.emitHead S) := by
  obtain ⟨hash, es, hpref, hpath, hunder⟩ := hinv.prefHash hS hU hT
  rw [Core.emitHead, hpref] at hf ⊢
  dsimp only at hf ⊢
  split
  · rename_i heq
    subst heq
    refine ⟨hpref, ?_, h.named⟩
    rcases h.aims with htop | hno
    · exact htop
    · exact absurd hunder hno
  · rename_i hne
    rw [if_neg hne] at hf
    cases hres : Core.head { c with lastPref := hash } hash with
    | mk res c' =>
      rw [hres] at hf
      cases res with
      | error e => simp [Core.fail] at hf
      | ok u =>
        have hc' : c' = (Core.head { c with lastPref := hash } hash).2 := by rw [hres]
        have hok : c.host.tracker.head c.host.sink hash =
            (.ok (), c'.host.tracker, c'.host.sink) := by
          have hfst := congrArg Prod.fst hres
          rw [hc']
          exact Prod.ext hfst rfl
        have htop := h.mid.published.head_top (determines_heads hU hT) hpath hok
        subst hc'
        exact ⟨hpref, htop, h.named⟩

/-- The loop of `recordPolls` without a failure. -/
theorem HeadMid.recordLoop {tree : T → Tree} (hS : S.topo.Contract tree) (hU : HeadersByHash U)
    (hT : ∀ b, Tag b → Heads U b) (results : List V) (h : HeadMid U Tag (tree c.cons) c)
    (hinv : CoreInv U Tag tree c) (hf : (c.recordLoop S results).2.fatal = []) :
    (c.recordLoop S results).1 = true ∧ CoreInv U Tag tree (c.recordLoop S results).2 ∧
      HeadMid U Tag (tree (c.recordLoop S results).2.cons) (c.recordLoop S results).2 := by
  induction results generalizing c with
  | nil => exact ⟨rfl, hinv, h⟩
  | cons votes rest ih =>
    have hmid := recordPoll_rule (HeadMid U Tag) (fun t c con hm => hm.onAccept hU hT)
      (fun t c con hm => hm.onReject con)
      (fun t c cons hm => ⟨hm.mid.congr rfl rfl rfl rfl rfl rfl rfl rfl, hm.aims, hm.named⟩) hS votes h
    have hstep := hinv.recordPoll hS hU hT votes
    have hgrows := grows_recordPoll (S := S) c votes
    rw [Core.recordLoop] at hf ⊢
    cases hres : c.recordPoll S votes with
    | mk ok c1 =>
      rw [hres] at hmid hstep hf
      have hfatal : c1.fatal = [] := by
        cases ok with
        | false => exact hf
        | true =>
          have hmoves := moves_recordLoop S U c1 rest
          exact List.prefix_nil.mp (hf ▸ (Moves.grows hmoves).fatal)
      have hbus : ¬ c1.BusFailed := by
        rintro ⟨f, hm, -⟩
        rw [hfatal] at hm
        cases hm
      obtain ⟨hm1, hcons, -⟩ := hmid.resolve_right hbus
      cases ok with
      | false =>
        -- a turn that stops has failed
        rw [Core.recordPoll] at hres
        split at hres
        · cases hres
        · rw [← (Prod.mk.inj hres).2] at hfatal
          simp [Core.fail] at hfatal
      | true =>
        rw [← hcons] at hm1
        exact ih hm1 (hstep.resolve_right hbus) hf

theorem Tracks.recordPolls {tree : T → Tree} (h : Tracks S U c) (hinv : CoreInv U Tag tree c)
    (hS : S.topo.Contract tree) (hU : HeadersByHash U) (hT : ∀ b, Tag b → Heads U b)
    (results : List V) (hf : (c.recordPolls S results).fatal = []) :
    Tracks S U (c.recordPolls S results) := by
  cases results with
  | nil => exact h
  | cons votes rest =>
    have hloop := (h.headMid hinv).recordLoop (S := S) hS hU hT (votes :: rest) hinv
    rw [Core.recordPolls] at hf ⊢
    cases hres : c.recordLoop S (votes :: rest) with
    | mk ok c1 =>
      rw [hres] at hloop hf
      cases ok with
      | false => cases (hloop hf).1
      | true =>
        have hpos : (votes :: rest).length > 0 := by simp
        dsimp only at hf ⊢
        rw [if_pos hpos] at hf ⊢
        have hf1 : c1.fatal = [] := List.prefix_nil.mp (hf ▸ (grows_emitHead c1).fatal)
        obtain ⟨-, hinv1, hmid1⟩ := hloop hf1
        exact hmid1.emitHead hinv1 hS hU hT hf

end Steps

/-! ## Turns -/

/-- The preference is not a container that waits to be issued. -/
theorem CoreInv.preference_ne {Tag : Batch → Prop} {tree : T → Tree} {c : Core T}
    (h : CoreInv U Tag tree c) (hS : S.topo.Contract tree) {id : ID} {r : Rec}
    (hr : c.recs.get id = some r) (hi : r.issued = false)
    (hne : S.topo.preference c.cons ≠ c.lastAcceptedID) : S.topo.preference c.cons ≠ id := by
  rintro rfl
  rcases hS.preference c.cons with hlast | hproc
  · exact hne (hlast.trans h.mid.last)
  · exact hproc (h.mid.procs_none hr hi)

theorem Tracks.issue {tree : T → Tree} {c : Core T} (h : Tracks S U c)
    (hinv : CoreInv U (Heads U) tree c) (hS : S.topo.Contract tree) (hU : HeadersByHash U) {id : ID}
    {r : Rec} {p : Hash × UInt64 × List Batch} (hr : c.recs.get id = some r)
    (hi : r.issued = false) (hp : c.parentOf r = some p) (hf : (c.issue S r p).2.fatal = []) :
    Tracks S U (c.issue S r p).2 := by
  have hT : ∀ b, Heads U b → Heads U b := fun _ hb => hb
  rw [Core.issue] at hf ⊢
  split
  · refine ⟨?_, h.top, h.named⟩
    rw [← h.preferred]
    refine prefHash_congr rfl rfl rfl (fun hne => ?_)
    obtain ⟨rfl, -⟩ := hinv.mid.recs id r hr
    exact Table.get_erase_of_ne _ (hinv.preference_ne hS hr hi hne)
  · rename_i hmatch
    rw [if_neg hmatch] at hf
    rw [not_or, not_not, not_not] at hmatch
    have hsame : (c.execute S p.1 p.2.2 r.c.eth).2.host.tracker = c.host.tracker ∧
        (c.execute S p.1 p.2.2 r.c.eth).2.lastPref = c.lastPref ∧
        (c.execute S p.1 p.2.2 r.c.eth).2.Named U := ⟨rfl, rfl, h.named⟩
    cases hres : c.execute S p.1 p.2.2 r.c.eth with
    | mk res c1 =>
      rw [hres] at hf hsame
      cases res with
      | error x => simp [Core.fail] at hf
      | ok b =>
        obtain ⟨-, hjoin⟩ := hinv.joined hS hr hi hp hmatch.1 hmatch.2 (fun b _ _ _ hb => hb) hres
        dsimp only at hf ⊢
        split
        · rename_i hadd
          simp [hadd, Core.fail] at hf
        · rename_i cons hadd
          rw [hadd] at hf
          have hinv1 := hjoin cons hadd (p.2.2 ++ [b])
          have htop : (c1.host.tracker.verified b).top = c.host.tracker.top := by
            rw [hsame.1, Tracker.verified]
            split <;> rfl
          refine HeadMid.emitHead ⟨hinv1.mid, .inl ?_, hsame.2.2⟩ hinv1 hS hU hT hf
          exact (htop.trans h.top).trans hsame.2.1.symm

/-- Every turn without a failure ends with the preference published. -/
theorem Tracks.turn {tree : T → Tree} {c c' : Core T} (h : Tracks S U c)
    (hinv : CoreInv U (Heads U) tree c) (hS : S.topo.Contract tree) (hU : HeadersByHash U)
    (hturn : Turn S U c c') (hf : c'.fatal = []) : Tracks S U c' := by
  cases hturn with
  | insert con hcon hnew hlast hnum =>
    refine ⟨?_, h.top, h.named⟩
    rw [← h.preferred]
    refine prefHash_congr rfl rfl rfl (fun hne => Table.get_set_of_ne _ _ ?_)
    rintro heq
    have hpref := h.preferred
    rw [Core.prefHash, if_neg hne, heq, hnew] at hpref
    cases hpref
  | wait pending => exact ⟨h.preferred, h.top, h.named⟩
  | issue hr hi hp => exact h.issue hinv hS hU hr hi hp hf
  | polls results => exact h.recordPolls hinv hS hU (fun _ hb => hb) results hf

theorem Tracks.turns {tree : T → Tree} {c c' : Core T} (h : Tracks S U c)
    (hinv : CoreInv U (Heads U) tree c) (hS : S.topo.Contract tree) (hU : HeadersByHash U)
    (hturns : Turns S U c c') (hf : c'.fatal = []) : Tracks S U c' := by
  induction hturns with
  | refl => exact h
  | @tail c1 c2 hturns hlast ih =>
    have hf1 : c1.fatal = [] := List.prefix_nil.mp (hf ▸ (Moves.grows hlast.moves).fatal)
    have hinv1 : CoreInv U (Heads U) tree c1 := by
      refine (CoreInv.moves (.inl hinv) hS hU (Turns.moves hturns)).resolve_right ?_
      rintro ⟨f, hm, -⟩
      rw [hf1] at hm
      cases hm
    exact (ih hf1).turn hinv1 hS hU hlast hf

/-! ## Runs -/

/-- The live engine starts with the anchor preferred and published. -/
theorem LoopInv.tracks {tree : T → Tree} (hS : S.topo.Contract tree) {b : Backfill}
    {low : Container} {cs : List Container} (hchain : Chain U b low cs) {anchor : Container}
    (hanchor : b.anchor = some anchor) {h : UInt64} {parent : Hash} {c : Core T}
    (hI : LoopInv b.chain h parent c) (hend : b.chain.get h = none) :
    Tracks S U (c.anchored S anchor) := by
  obtain ⟨pc, hpc, hpch⟩ := hI.stands
  rw [hI.next] at hend
  obtain rfl : anchor = pc := Option.some.inj (hanchor.symm.trans (hchain.top hpc hend))
  obtain ⟨-, -, hcU⟩ := hchain.of_get hpc
  have htree : tree (c.anchored S anchor).cons = ⟨anchor.id, fun _ => none⟩ := hS.init _ _ _
  have hpref : S.topo.preference (c.anchored S anchor).cons =
      (c.anchored S anchor).lastAcceptedID := by
    rcases hS.preference (c.anchored S anchor).cons with hlast | hproc
    · rw [hlast, htree]
      rfl
    · rw [htree] at hproc
      exact absurd rfl hproc
  refine ⟨?_, ?_, anchor, hcU, rfl, rfl⟩
  · rw [Core.prefHash, if_pos hpref]
    rfl
  · have htop : (c.anchored S anchor).host.tracker.top = c.host.tracker.finalizedHash := by
      show c.host.tracker.top = _
      rw [Tracker.top, hI.rest.stack]
      rfl
    rw [htop, hI.hash, ← hpch]
    rfl

theorem tracks_shift {tree : T → Tree} (hS : S.topo.Contract tree) (hU : HeadersByHash U)
    {e e' : Engine T P N} (hinv : EngineInv U tree e) (h : e.phase = .live → Tracks S U e.core)
    (hshift : Shift S U e e') (hf : e'.core.fatal = []) : e'.phase = .live → Tracks S U e'.core := by
  intro hlive
  cases hshift with
  | same hp hc hl ha hchain =>
    rw [hc]
    exact h (hp.symm.trans hlive)
  | moves hp heff => exact (h hp).turns (hinv.live hp) hS hU heff.turns hf
  | found hp a => cases hlive
  | take hp _ _ | refuse hp _ | stop hp _ _ _ => cases hp.symm.trans hlive
  | @live start anchor height hash c hp hlow hanchor hs hloop =>
    have hpre : PreLive e.core := hinv.pre (by rw [hp]; decide)
    obtain ⟨cs, hchain⟩ := (hinv.back hp).chain hlow
    have hgap := backfillLoop_inv hU hchain hpre (seeds e.back.chain start height) hs
      e.back.chain.size
    rw [hloop] at hgap
    obtain ⟨h', parent', ⟨hI, -⟩ | ⟨f, hm, -⟩, hend⟩ := hgap
    · exact hI.tracks hS hchain hanchor hend
    · have hcf : c.fatal = [] := hf
      rw [hcf] at hm
      cases hm

/-- In every live state that any order of containers, chits and ticks leads to without a
fatal error, the newest published block is that of the preferred container. -/
theorem head_tracks_preference {tree : T → Tree} (hS : S.topo.Contract tree)
    (hU : HeadersByHash U) {host : Host} (hhost : Rest host.sink) {net : N} {e : Engine T P N}
    (h : Run S U (fun _ _ => True) (Engine.new S host net) e) (hlive : e.phase = .live)
    (hfatal : e.core.fatal = []) :
    ∃ con, U con ∧ con.id = S.topo.preference e.core.cons ∧
      con.eth.hash = e.core.host.tracker.top := by
  have hrule := h.rule
    (fun e => e.core.fatal = [] → EngineInv U tree e ∧ (e.phase = .live → Tracks S U e.core))
    (fun _ => ⟨engineInv_new hhost, fun hx => (by cases hx)⟩)
    (fun e e' hI hshift hf => by
      have hf0 : e.core.fatal = [] := List.prefix_nil.mp (hf ▸ hshift.grows.fatal)
      obtain ⟨hinv, htracks⟩ := hI hf0
      refine ⟨(hinv.shift hS hU hshift).resolve_right ?_,
        tracks_shift hS hU hinv htracks hshift hf⟩
      rintro ⟨f, hm, -⟩
      rw [hf] at hm
      cases hm)
    (fun e handle hI _ hf => by
      obtain ⟨hinv, htracks⟩ := hI hf
      refine ⟨hinv.looks handle, fun hx => ?_⟩
      obtain ⟨h1, h2, h3⟩ := htracks hx
      exact ⟨h1, h2, h3⟩)
  obtain ⟨hinv, htracks⟩ := hrule hfatal
  obtain ⟨hpref, htop, con, hcon, hid, hhash⟩ := htracks hlive
  rw [Core.prefHash] at hpref
  split at hpref
  · rename_i hlast
    exact ⟨con, hcon, hid.trans hlast.symm, by rw [hhash, htop, Option.some.inj hpref]⟩
  · obtain ⟨r, hr, hrh⟩ := Option.map_eq_some_iff.mp hpref
    obtain ⟨hrid, hrU⟩ := (hinv.live hlive).mid.recs _ r hr
    exact ⟨r.c, hrU, hrid, hrh.trans htop.symm⟩

namespace Sample

/-- The anchor and two children of it. -/
def siblings : List Bytes := [[105, 104, 5, 4, 5], [106, 105, 6, 5, 6], [107, 105, 7, 5, 6]]

/-- The second child is preferred, and a vote accepts the first: the stack is replaced. -/
def switched : Engine Procs Unit UInt32 :=
  ((alive.onContainer setup 0 [106, 105, 6, 5, 6]).onContainer setup 0 [107, 105, 7, 5, 6]).onChits
    setup 0 (node 1) 3 (FixedBytes.ofNat 32 106) ID.empty (FixedBytes.ofNat 32 105) 5

theorem switched_run : Run setup (fun c => c ∈ siblings.filterMap parse) (fun _ _ => True)
    (Engine.new setup host 0) switched := by
  refine (((alive_run fun c hc => ?_).call 0 (.container (node 1) [106, 105, 6, 5, 6])
    (fun c hc => ?_) trivial).call 0 (.container (node 1) [107, 105, 7, 5, 6])
    (fun c hc => ?_) trivial).call 0
    (.chits (node 1) 3 (FixedBytes.ofNat 32 106) ID.empty (FixedBytes.ofNat 32 105) 5)
    (by simp [Input.delivers]) trivial
  all_goals
    simp only [Input.delivers, setup, parse, Option.toList_some, List.mem_singleton] at hc
    subst hc
    simp [siblings, parse]

theorem siblings_headersByHash : HeadersByHash (fun c => c ∈ siblings.filterMap parse) := by
  have hall : ∀ c ∈ siblings.filterMap parse, ∀ c' ∈ siblings.filterMap parse,
      c.eth.hash = c'.eth.hash →
        c.eth.parentHash = c'.eth.parentHash ∧ c.eth.number = c'.eth.number := by
    decide +kernel
  exact fun c c' hc hc' => hall c hc c' hc'

end Sample

open Sample in
/-- The child that was accepted is preferred and published, although the other one was
announced last. -/
theorem head_tracks_preference_switched :
    switched.core.lastPref = FixedBytes.ofNat 32 6 ∧
      switched.core.host.tracker.top = FixedBytes.ofNat 32 6 ∧
      ∃ con, con ∈ siblings.filterMap parse ∧
        con.id = setup.topo.preference switched.core.cons ∧
        con.eth.hash = switched.core.host.tracker.top :=
  ⟨by decide +kernel, by decide +kernel,
    head_tracks_preference topo_contract siblings_headersByHash host_rest switched_run
      (by decide +kernel) (by decide +kernel)⟩

end Flatstate.Consensus
