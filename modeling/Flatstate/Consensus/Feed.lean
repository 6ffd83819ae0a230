import Flatstate.Consensus.Effects

set_option autoImplicit false

/-!
# Consensus: the live engine feeds the sink a chain

Containers and eth blocks are two chains that must mirror each other, and three tables
are pruned by different rules: the engine's containers, the consensus object's tree and
the tracker's batches.  `Mid` says how they fit together, also between two callbacks of
one `RecordPoll`; every move keeps it unless the bus cannot commit.

Headers are told apart by their hashes: two delivered containers with one eth hash have
one parent hash and one number.  Nothing is assumed about bodies.
-/

namespace Flatstate.Consensus

open Foundation Schema Capture Store Exec Node

/-! ## What a sink may be told -/

/-- What a sink has been told: the accepted block and the batch last verified under each
hash. -/
structure Feed where
  height : UInt64
  hash : Hash
  known : Hash → Option Batch

/-- A hash that hangs on the accepted block by verified batches above it. -/
inductive Feed.Connected (f : Feed) : Hash → Prop where
  | root : f.Connected f.hash
  | step {b : Batch} (hb : f.known b.hash = some b) (habove : f.height < b.block)
      (h : f.Connected b.parent) : f.Connected b.hash

/-- A head is connected, and a block that is accepted is a verified child of the accepted
one. -/
def Feed.Allows (f : Feed) : Call → Prop
  | .verified _ => True
  | .head hash => f.Connected hash
  | .accepted block hash =>
    block.toNat = f.height.toNat + 1 ∧
      ∃ b, f.known hash = some b ∧ b.block = block ∧ b.parent = f.hash

def Feed.next (f : Feed) : Call → Feed
  | .verified b => { f with known := Function.update f.known b.hash (some b) }
  | .head _ => f
  | .accepted block hash => { f with height := block, hash := hash }

/-- The calls to a sink, each allowed after those before it. -/
def Feeds (f : Feed) : List Call → Prop
  | [] => True
  | x :: xs => f.Allows x ∧ Feeds (f.next x) xs

theorem feeds_concat {f : Feed} {xs : List Call} {x : Call} (h : Feeds f xs)
    (hx : (xs.foldl Feed.next f).Allows x) : Feeds f (xs ++ [x]) := by
  induction xs generalizing f with
  | nil => exact ⟨hx, trivial⟩
  | cons y ys ih => exact ⟨h.1, ih h.2 hx⟩

variable {T P V N ρ : Type} {S : Setup T P V N ρ}

/-- The start of a sink: the point it was made at, and nothing verified. -/
def Core.feed0 (c : Core T) : Feed := ⟨c.startHeight, c.startHash, fun _ => none⟩

/-- What the engine's sink has been told. -/
def Core.feed (c : Core T) : Feed := c.calls.foldl Feed.next c.feed0

/-! ## Delivered headers -/

variable {U : Container → Prop}

/-- The eth hash of a delivered container determines its parent hash and number. -/
def HeadersByHash (U : Container → Prop) : Prop :=
  ∀ c c', U c → U c' → c.eth.hash = c'.eth.hash →
    c.eth.parentHash = c'.eth.parentHash ∧ c.eth.number = c'.eth.number

open Classical in
/-- The number of the delivered block with a hash. -/
noncomputable def numberOf (U : Container → Prop) (h : Hash) : Nat :=
  if hx : ∃ c, U c ∧ c.eth.hash = h then hx.choose.eth.number.toNat else 0

open Classical in
/-- The parent hash of the delivered block with a hash. -/
noncomputable def parentHashOf (U : Container → Prop) (h : Hash) : Hash :=
  if hx : ∃ c, U c ∧ c.eth.hash = h then hx.choose.eth.parentHash else Hash.zero

theorem numberOf_eq (hU : HeadersByHash U) {c : Container} (hc : U c) :
    numberOf U c.eth.hash = c.eth.number.toNat := by
  have hx : ∃ c', U c' ∧ c'.eth.hash = c.eth.hash := ⟨c, hc, rfl⟩
  rw [numberOf, dif_pos hx, (hU _ c hx.choose_spec.1 hc hx.choose_spec.2).2]

theorem parentHashOf_eq (hU : HeadersByHash U) {c : Container} (hc : U c) :
    parentHashOf U c.eth.hash = c.eth.parentHash := by
  have hx : ∃ c', U c' ∧ c'.eth.hash = c.eth.hash := ⟨c, hc, rfl⟩
  rw [parentHashOf, dif_pos hx, (hU _ c hx.choose_spec.1 hc hx.choose_spec.2).1]

/-- A batch with the hash, parent and number of a delivered container whose parent block
was delivered too, one below. -/
def Heads (U : Container → Prop) (b : Batch) : Prop :=
  ∃ c p, U c ∧ U p ∧ b.hash = c.eth.hash ∧ b.parent = p.eth.hash ∧ b.block = c.eth.number ∧
    c.eth.parentHash = p.eth.hash ∧ c.eth.number.toNat = p.eth.number.toNat + 1

theorem determines_heads (hU : HeadersByHash U) {Tag : Batch → Prop}
    (hT : ∀ b, Tag b → Heads U b) : Determines Tag (numberOf U) (parentHashOf U) where
  block b hb := by
    obtain ⟨c, p, hc, hp, hh, -, hn, -⟩ := hT b hb
    rw [hh, hn, numberOf_eq hU hc]
  parent b hb := by
    obtain ⟨c, p, hc, hp, hh, hpar, -, hlink, -⟩ := hT b hb
    rw [hh, hpar, parentHashOf_eq hU hc, hlink]
  succ b hb := by
    obtain ⟨c, p, hc, hp, hh, hpar, -, -, hsucc⟩ := hT b hb
    rw [hh, hpar, numberOf_eq hU hc, numberOf_eq hU hp, hsucc]

/-! ## The invariant -/

/-- How containers, tree, tracker and sink fit together; `t` is what the consensus object
has processing and accepted.  Between two callbacks there may be issued containers that
do not descend from the accepted one. -/
structure Mid (U : Container → Prop) (Tag : Batch → Prop) (t : Tree) (c : Core T) : Prop where
  recs : ∀ id r, c.recs.get id = some r → r.c.id = id ∧ U r.c
  fresh : ∀ id r, c.recs.get id = some r → r.issued = false →
    c.lastAcceptedHeight < r.c.eth.number
  lastRec : c.recs.get c.lastAcceptedID = none
  procs : ∀ id con, t.procs id = some con ↔
    ∃ r, c.recs.get id = some r ∧ r.issued = true ∧ r.c = con
  last : t.last = c.lastAcceptedID
  lastU : ∃ con, U con ∧ con.eth.hash = c.lastAcceptedEthHash ∧
    con.eth.number = c.lastAcceptedHeight
  onLast : ∀ id r, c.recs.get id = some r → r.issued = true → r.c.parentID = c.lastAcceptedID →
    r.c.eth.parentHash = c.lastAcceptedEthHash ∧
      r.c.eth.number.toNat = c.lastAcceptedHeight.toNat + 1
  onRec : ∀ id r p, c.recs.get id = some r → r.issued = true →
    c.recs.get r.c.parentID = some p → p.issued = true →
    r.c.eth.parentHash = p.c.eth.hash ∧ r.c.eth.number.toNat = p.c.eth.number.toNat + 1
  published : Published Tag (numberOf U) c.host.tracker c.host.sink
  height : c.host.tracker.finalizedHeight = c.lastAcceptedHeight
  hash : c.host.tracker.finalizedHash = c.lastAcceptedEthHash
  table : ∀ id r, c.recs.get id = some r → r.issued = true →
    c.lastAcceptedHeight < r.c.eth.number → c.host.tracker.table.get r.c.eth.hash ≠ none
  feeds : Feeds c.feed0 c.calls
  feedHeight : c.feed.height = c.lastAcceptedHeight
  feedHash : c.feed.hash = c.lastAcceptedEthHash
  known : ∀ h b, c.host.tracker.table.get h = some b → c.feed.known h = some b

/-- A failure of the bus, as `fail` is told of it. -/
def Fatal.isBus : Fatal → Bool
  | .head (.sink (.bus .txn)) => true
  | .recordPoll (.sink (.bus .txn)) => true
  | .backfillAccept _ (.sink (.bus .txn)) => true
  | _ => false

/-- A failure of the sink in live mode. -/
def Fatal.isSink : Fatal → Bool
  | .head _ => true
  | .recordPoll _ => true
  | _ => false

/-- The bus could not commit. -/
def Core.BusFailed (c : Core T) : Prop := ∃ f ∈ c.fatal, f.isBus = true

/-- What holds between two moves. -/
structure CoreInv (U : Container → Prop) (Tag : Batch → Prop) (tree : T → Tree) (c : Core T) :
    Prop where
  mid : Mid U Tag (tree c.cons) c
  rooted : (tree c.cons).Rooted
  clean : ∀ f ∈ c.fatal, f.isSink = false

section Steps

variable {Tag : Batch → Prop} {t : Tree} {c : Core T}

/-- A container that is not issued is not processing. -/
theorem Mid.procs_none (h : Mid U Tag t c) {id : ID} {r : Rec} (hr : c.recs.get id = some r)
    (hi : r.issued = false) : t.procs id = none := by
  cases hx : t.procs id with
  | none => rfl
  | some con =>
    obtain ⟨r', hr', hi', -⟩ := (h.procs _ con).mp hx
    obtain rfl := Option.some.inj (hr.symm.trans hr')
    rw [hi] at hi'
    cases hi'

theorem Mid.ne_last (h : Mid U Tag t c) {id : ID} {r : Rec} (hr : c.recs.get id = some r) :
    id ≠ c.lastAcceptedID := by
  rintro rfl
  rw [h.lastRec] at hr
  cases hr

/-- The table's batch of an issued container above the accepted one has its header. -/
theorem Mid.batch (h : Mid U Tag t c) (hU : HeadersByHash U) (hT : ∀ b, Tag b → Heads U b) {id : ID}
    {r : Rec} (hr : c.recs.get id = some r) (hi : r.issued = true)
    (habove : c.lastAcceptedHeight < r.c.eth.number) :
    ∃ b, c.host.tracker.table.get r.c.eth.hash = some b ∧ b.hash = r.c.eth.hash ∧
      b.parent = r.c.eth.parentHash ∧ b.block = r.c.eth.number := by
  have hd := determines_heads hU hT
  obtain ⟨b, hb⟩ := Option.ne_none_iff_exists'.mp (h.table id r hr hi habove)
  obtain ⟨hbh, hbT, -⟩ := h.published.table _ b hb
  have hrU := (h.recs id r hr).2
  refine ⟨b, hb, hbh, ?_, ?_⟩
  · rw [hd.parent b hbT, hbh, parentHashOf_eq hU hrU]
  · refine UInt64.toNat_inj.mp ?_
    rw [hd.block b hbT, hbh, numberOf_eq hU hrU]

/-- The eth hash of the accepted container or of an issued one above it. -/
inductive HashOf (c : Core T) (id : ID) : Hash → Prop where
  | last (hid : id = c.lastAcceptedID) : HashOf c id c.lastAcceptedEthHash
  | issued {r : Rec} (hr : c.recs.get id = some r) (hi : r.issued = true)
      (habove : c.lastAcceptedHeight < r.c.eth.number) : HashOf c id r.c.eth.hash

/-- What descends from the accepted container is above it, and its blocks are a path of
verified batches, in the tracker's table and in the feed. -/
theorem Mid.descends (h : Mid U Tag t c) (hU : HeadersByHash U) (hT : ∀ b, Tag b → Heads U b)
    {id : ID} (hdesc : t.Descends id) :
    ∃ hash, HashOf c id hash ∧ c.feed.Connected hash ∧
      ∃ es, c.host.tracker.table.Path Batch.parent c.host.tracker.finalizedHash hash es := by
  induction hdesc with
  | last =>
    refine ⟨_, .last h.last, ?_, [], ?_⟩
    · rw [← h.feedHash]
      exact .root
    · rw [← h.hash]
      exact .root
  | @step id con hproc hdesc ih =>
    obtain ⟨r, hr, hi, rfl⟩ := (h.procs id con).mp hproc
    obtain ⟨hash, hof, hconn, es, hpath⟩ := ih
    -- the parent's hash is the block's parent hash, and its number is one less
    have hlink : r.c.eth.parentHash = hash ∧ c.lastAcceptedHeight < r.c.eth.number := by
      cases hof with
      | last hid =>
        obtain ⟨h1, h2⟩ := h.onLast id r hr hi hid
        exact ⟨h1, by rw [UInt64.lt_iff_toNat_lt]; omega⟩
      | @issued p hp hpi habove =>
        obtain ⟨h1, h2⟩ := h.onRec id r p hr hi hp hpi
        rw [UInt64.lt_iff_toNat_lt] at habove ⊢
        exact ⟨h1, by omega⟩
    obtain ⟨rfl, habove⟩ := hlink
    obtain ⟨b, hb, hbh, hbp, hbn⟩ := h.batch hU hT hr hi habove
    refine ⟨_, .issued hr hi habove, ?_, (r.c.eth.hash, b) :: es, .step ?_ hb ?_⟩
    · rw [← hbh]
      refine .step ?_ ?_ ?_
      · rw [hbh]
        exact h.known _ b hb
      · rw [h.feedHeight, hbn]
        exact habove
      · rw [hbp]
        exact hconn
    · intro heq
      obtain ⟨con, hcon, hch, hcn⟩ := h.lastU
      have hn := (hU r.c con (h.recs id r hr).2 hcon (by rw [heq, h.hash, hch])).2
      rw [hn, hcn] at habove
      exact absurd habove (UInt64.lt_irrefl _)
    · rw [hbp]
      exact hpath

/-- Fields that only the rest of the engine looks at. -/
theorem Mid.congr (h : Mid U Tag t c) {c' : Core T} (hr : c'.recs = c.recs)
    (h1 : c'.lastAcceptedID = c.lastAcceptedID) (h2 : c'.lastAcceptedHeight = c.lastAcceptedHeight)
    (h3 : c'.lastAcceptedEthHash = c.lastAcceptedEthHash)
    (ht : c'.host.tracker = c.host.tracker) (hs : c'.host.sink = c.host.sink)
    (hc : c'.calls = c.calls) (h0 : c'.feed0 = c.feed0) : Mid U Tag t c' := by
  have hfeed : c'.feed = c.feed := by rw [Core.feed, Core.feed, hc, h0]
  obtain ⟨g1, g2, g3, g4, g5, g6, g7, g8, g9, g10, g11, g12, g13, g14, g15, g16⟩ := h
  constructor <;> simp only [hr, h1, h2, h3, ht, hs, hc, h0, hfeed] <;> assumption

/-! ## A head -/

theorem feed_concat (c : Core T) (x : Call) {c' : Core T} (hc : c'.calls = c.calls ++ [x])
    (h0 : c'.feed0 = c.feed0) : c'.feed = c.feed.next x := by
  rw [Core.feed, hc, h0, List.foldl_append]
  rfl

/-- Announcing a connected head. -/
theorem Mid.head (h : Mid U Tag t c) (hU : HeadersByHash U) (hT : ∀ b, Tag b → Heads U b)
    {hash : Hash} (hconn : c.feed.Connected hash) {es : List (Hash × Batch)}
    (hpath : c.host.tracker.table.Path Batch.parent c.host.tracker.finalizedHash hash es) :
    ((c.head hash).1 = .ok () ∧ Mid U Tag t (c.head hash).2) ∨
      (c.head hash).1 = .error (.sink (.bus .txn)) := by
  have hd := determines_heads hU hT
  rcases h.published.head hd hpath with ⟨stack, s', hres, henv, hpub⟩ | ⟨t', s', hres⟩
  · left
    have hhead : c.head hash = (.ok (), { c with
        host := { c.host with tracker := { c.host.tracker with stack := stack }, sink := s' }
        calls := c.calls ++ [.head hash] }) := by
      rw [Core.head, hres]
    have hfeed : (c.head hash).2.feed = c.feed.next (.head hash) := feed_concat c _ rfl rfl
    rw [hhead] at hfeed ⊢
    refine ⟨rfl, { h with
      published := hpub
      height := h.height
      hash := h.hash
      table := h.table
      feeds := feeds_concat h.feeds hconn
      feedHeight := ?_
      feedHash := ?_
      known := ?_ }⟩
    · rw [hfeed]
      exact h.feedHeight
    · rw [hfeed]
      exact h.feedHash
    · rw [hfeed]
      exact h.known
  · right
    rw [Core.head, hres]

/-- The preference is the accepted container or an issued one, and `emitHead` finds its
hash. -/
theorem Mid.prefHash (h : Mid U Tag t c) {hash : Hash}
    (hof : HashOf c (S.topo.preference c.cons) hash) : c.prefHash S = some hash := by
  rw [Core.prefHash]
  cases hof with
  | last hid => rw [if_pos hid]
  | @issued r hr hi habove =>
    rw [if_neg (h.ne_last hr), hr]
    rfl

theorem busFailed_fail (c : Core T) {f : Fatal} (hf : f.isBus = true) : (c.fail f).BusFailed :=
  ⟨f, by simp [Core.fail], hf⟩

theorem CoreInv.emitHead {tree : T → Tree} (h : CoreInv U Tag tree c) (hS : S.topo.Contract tree)
    (hU : HeadersByHash U) (hT : ∀ b, Tag b → Heads U b) :
    CoreInv U Tag tree (c.emitHead S) ∨ (c.emitHead S).BusFailed := by
  have hdesc : (tree c.cons).Descends (S.topo.preference c.cons) := by
    rcases hS.preference c.cons with hlast | hproc
    · rw [hlast]
      exact .last
    · obtain ⟨con, hcon⟩ := Option.ne_none_iff_exists'.mp hproc
      exact h.rooted _ con hcon
  obtain ⟨hash, hof, hconn, es, hpath⟩ := h.mid.descends hU hT hdesc
  rw [Core.emitHead, h.mid.prefHash hof]
  dsimp only
  split
  · exact Or.inl h
  · have hmid : Mid U Tag (tree c.cons) { c with lastPref := hash } :=
      h.mid.congr rfl rfl rfl rfl rfl rfl rfl rfl
    rcases hmid.head hU hT hconn hpath with ⟨hok, hm⟩ | herr
    · left
      have heq : Core.head { c with lastPref := hash } hash =
          (.ok (), (Core.head { c with lastPref := hash } hash).2) := by rw [← hok]
      rw [heq]
      exact ⟨hm, h.rooted, h.clean⟩
    · right
      have heq : Core.head { c with lastPref := hash } hash =
          (.error (.sink (.bus .txn)), (Core.head { c with lastPref := hash } hash).2) := by
        rw [← herr]
      rw [heq]
      exact busFailed_fail _ rfl

/-! ## A decision -/

theorem get_onAccept {recs : Table ID Rec} {con : Container} {id : ID} {r : Rec} :
    ((recs.erase con.id).keep
        (fun _ o => o.issued ∨ ¬ o.c.eth.number ≤ con.eth.number)).get id = some r ↔
      id ≠ con.id ∧ recs.get id = some r ∧ (r.issued = true ∨ con.eth.number < r.c.eth.number) := by
  rw [Table.get_keep, Option.filter_eq_some_iff, Table.get_erase]
  split
  · rename_i heq
    simp [heq]
  · rename_i hne
    simp [hne]

/-- What an acceptance leaves: the store has a tagged batch of the hash, and the tracker
and the executor keep what is above the block. -/
structure Wrote (Tag : Batch → Prop) (c c' : Core T) (con : Container) : Prop where
  env : ∃ b, Tag b ∧ b.hash = con.eth.hash ∧
    c'.host.sink.env = setFinalized (writeBlock c.host.sink.env b) con.eth.number
  table : c'.host.tracker.table = c.host.tracker.table.keep (fun _ b => ¬ b.block ≤ con.eth.number)
  exec : c'.host.exec = c.host.exec.onFinalized con.eth.number

/-- Accepting a processing child of the accepted container. -/
theorem Mid.onAccept (h : Mid U Tag t c) (hU : HeadersByHash U) (hT : ∀ b, Tag b → Heads U b)
    {con : Container} (hproc : t.procs con.id = some con) (hpar : con.parentID = t.last) :
    ((c.onAccept con).1 = .ok () ∧ Mid U Tag (t.accept con) (c.onAccept con).2 ∧
      Wrote Tag c (c.onAccept con).2 con) ∨
      (c.onAccept con).1 = .error (.sink (.bus .txn)) := by
  have hd := determines_heads hU hT
  obtain ⟨r, hr, hi, rfl⟩ := (h.procs _ con).mp hproc
  have hrU := (h.recs _ r hr).2
  obtain ⟨hph, hnum⟩ := h.onLast _ r hr hi (by rw [hpar, h.last])
  have habove : c.lastAcceptedHeight < r.c.eth.number := by
    rw [UInt64.lt_iff_toNat_lt]
    omega
  obtain ⟨b, hb, hbh, hbp, hbn⟩ := h.batch hU hT hr hi habove
  have hallows : c.feed.Allows (.accepted r.c.eth.number r.c.eth.hash) := by
    refine ⟨by rw [h.feedHeight, hnum], b, h.known _ b hb, hbn, ?_⟩
    rw [hbp, hph, h.feedHash]
  rcases h.published.accepted hd hb (by rw [hbp, hph, h.hash]) (numberOf_eq hU hrU).symm with
    ⟨stack, s', b', hbT', hbh', hres, henv, hpub⟩ | ⟨t', s', hres⟩
  · left
    have hfeed : (c.onAccept r.c).2.feed = c.feed.next (.accepted r.c.eth.number r.c.eth.hash) :=
      feed_concat c _ rfl rfl
    have htracker : (c.onAccept r.c).2.host.tracker =
        ({ c.host.tracker with stack := stack } : Tracker).finalized r.c.eth.number r.c.eth.hash :=
      congrArg (fun x => x.2.1) hres
    have hsink : (c.onAccept r.c).2.host.sink = s' := congrArg (fun x => x.2.2) hres
    have hrecs : ∀ id r', (c.onAccept r.c).2.recs.get id = some r' ↔ id ≠ r.c.id ∧
        c.recs.get id = some r' ∧ (r'.issued = true ∨ r.c.eth.number < r'.c.eth.number) :=
      fun id r' => get_onAccept
    -- the table keeps what is above the accepted block
    have htable : ∀ k b', (c.onAccept r.c).2.host.tracker.table.get k = some b' ↔
        c.host.tracker.table.get k = some b' ∧ r.c.eth.number < b'.block := by
      intro k b'
      rw [htracker]
      dsimp only [Tracker.finalized]
      rw [Table.get_keep, Option.filter_eq_some_iff]
      simp
    have hwrote : Wrote Tag c (c.onAccept r.c).2 r.c := by
      refine ⟨⟨b', hbT', hbh', by rw [hsink, henv]⟩, by rw [htracker]; rfl, ?_⟩
      have hok : (c.host.tracker.accepted c.host.sink r.c.eth.number r.c.eth.hash).1 = .ok () :=
        congrArg Prod.fst hres
      dsimp only [Core.onAccept, Core.accept]
      rw [hok]
    refine ⟨congrArg Prod.fst hres, ?_, hwrote⟩
    exact {
      recs := fun id r' hr' => h.recs id r' ((hrecs id r').mp hr').2.1
      fresh := fun id r' hr' hi' => by
        obtain ⟨-, -, hor⟩ := (hrecs id r').mp hr'
        rcases hor with hiss | hlt
        · rw [hi'] at hiss
          cases hiss
        · exact hlt
      lastRec := by
        cases hg : (c.onAccept r.c).2.recs.get (c.onAccept r.c).2.lastAcceptedID with
        | none => rfl
        | some r' => exact absurd rfl ((hrecs _ r').mp hg).1
      procs := fun id con => by
        show Function.update t.procs r.c.id none id = some con ↔ _
        by_cases hid : id = r.c.id
        · subst hid
          rw [Function.update_self]
          constructor
          · intro hc
            cases hc
          · rintro ⟨r', hr', -⟩
            exact absurd rfl ((hrecs _ r').mp hr').1
        · rw [Function.update_of_ne hid, h.procs id con]
          constructor
          · rintro ⟨r', hr', hi', rfl⟩
            exact ⟨r', (hrecs id r').mpr ⟨hid, hr', Or.inl hi'⟩, hi', rfl⟩
          · rintro ⟨r', hr', hi', rfl⟩
            exact ⟨r', ((hrecs id r').mp hr').2.1, hi', rfl⟩
      last := rfl
      lastU := ⟨r.c, hrU, rfl, rfl⟩
      onLast := fun id r' hr' hi' hpar' =>
        h.onRec id r' r ((hrecs id r').mp hr').2.1 hi' (by
          rw [show r'.c.parentID = r.c.id from hpar']
          exact hr) hi
      onRec := fun id r' p hr' hi' hp hpi =>
        h.onRec id r' p ((hrecs id r').mp hr').2.1 hi' ((hrecs _ p).mp hp).2.1 hpi
      published := by
        rw [htracker, hsink]
        exact hpub
      height := by
        rw [htracker]
        rfl
      hash := by
        rw [htracker]
        rfl
      table := fun id r' hr' hi' habove' => by
        obtain ⟨-, hr0, -⟩ := (hrecs id r').mp hr'
        have habove0 : c.lastAcceptedHeight < r'.c.eth.number := UInt64.lt_trans habove habove'
        obtain ⟨b', hb', -, -, hbn'⟩ := h.batch hU hT hr0 hi' habove0
        have hk := (htable r'.c.eth.hash b').mpr ⟨hb', by rw [hbn']; exact habove'⟩
        rw [hk]
        simp
      feeds := feeds_concat h.feeds hallows
      feedHeight := by
        rw [hfeed]
        rfl
      feedHash := by
        rw [hfeed]
        rfl
      known := fun k b' hk => by
        rw [hfeed]
        exact h.known k b' ((htable k b').mp hk).1 }
  · right
    exact congrArg Prod.fst hres

theorem get_erase_iff {recs : Table ID Rec} {x id : ID} {r : Rec} :
    (recs.erase x).get id = some r ↔ id ≠ x ∧ recs.get id = some r := by
  rw [Table.get_erase]
  split
  · rename_i heq
    simp [heq]
  · rename_i hne
    simp [hne]

/-- Rejecting a container. -/
theorem Mid.onReject (h : Mid U Tag t c) (con : Container) :
    Mid U Tag (t.reject con) (c.onReject con) := by
  have hrecs : ∀ id r, (c.onReject con).recs.get id = some r ↔ id ≠ con.id ∧ c.recs.get id = some r :=
    fun id r => get_erase_iff
  exact {
    recs := fun id r hr => h.recs id r ((hrecs id r).mp hr).2
    fresh := fun id r hr => h.fresh id r ((hrecs id r).mp hr).2
    lastRec := by
      cases hg : (c.onReject con).recs.get (c.onReject con).lastAcceptedID with
      | none => rfl
      | some r =>
        have hl := h.lastRec.symm.trans ((hrecs _ r).mp hg).2
        cases hl
    procs := fun id con' => by
      show Function.update t.procs con.id none id = some con' ↔ _
      by_cases hid : id = con.id
      · subst hid
        rw [Function.update_self]
        constructor
        · intro hc
          cases hc
        · rintro ⟨r, hr, -⟩
          exact absurd rfl ((hrecs _ r).mp hr).1
      · rw [Function.update_of_ne hid, h.procs id con']
        constructor
        · rintro ⟨r, hr, hi, rfl⟩
          exact ⟨r, (hrecs id r).mpr ⟨hid, hr⟩, hi, rfl⟩
        · rintro ⟨r, hr, hi, rfl⟩
          exact ⟨r, ((hrecs id r).mp hr).2, hi, rfl⟩
    last := h.last
    lastU := h.lastU
    onLast := fun id r hr => h.onLast id r ((hrecs id r).mp hr).2
    onRec := fun id r p hr hi hp => h.onRec id r p ((hrecs id r).mp hr).2 hi ((hrecs _ p).mp hp).2
    published := h.published
    height := h.height
    hash := h.hash
    table := fun id r hr => h.table id r ((hrecs id r).mp hr).2
    feeds := h.feeds
    feedHeight := h.feedHeight
    feedHash := h.feedHash
    known := h.known }

theorem callbacks_counts (ds : List Decision) (c : Core T) :
    (c.callbacks ds).2.2.fatal = c.fatal ∧ (c.callbacks ds).2.2.made = c.made := by
  induction ds generalizing c with
  | nil => exact ⟨rfl, rfl⟩
  | cons d ds ih =>
    cases d with
    | accept con =>
      rw [Core.callbacks]
      have hacc : (c.onAccept con).2.fatal = c.fatal ∧ (c.onAccept con).2.made = c.made := ⟨rfl, rfl⟩
      cases h : c.onAccept con with
      | mk res c1 =>
        rw [h] at hacc
        cases res with
        | error e => exact hacc
        | ok u => exact ⟨(ih c1).1.trans hacc.1, (ih c1).2.trans hacc.2⟩
    | reject con => exact ih (c.onReject con)

/-- The invariant rule of the callbacks of one `RecordPoll`: `I` is kept by an acceptance
unless the bus cannot commit, and by a rejection. -/
theorem callbacks_rule (I : Tree → Core T → Prop)
    (hacc : ∀ t c con, I t c → t.procs con.id = some con → con.parentID = t.last →
      ((c.onAccept con).1 = .ok () ∧ I (t.accept con) (c.onAccept con).2) ∨
        (c.onAccept con).1 = .error (.sink (.bus .txn)))
    (hrej : ∀ t c con, I t c → I (t.reject con) (c.onReject con)) {t t' : Tree}
    {ds : List Decision} (hrep : t.Replay ds t') {c : Core T} (h : I t c) :
    ((c.callbacks ds).1 = .ok () ∧ I t' (c.callbacks ds).2.2) ∨
      (c.callbacks ds).1 = .error (.sink (.bus .txn)) := by
  induction hrep generalizing c with
  | nil t => exact Or.inl ⟨rfl, h⟩
  | @accept t t' con ds hproc hpar hrep ih =>
    have hacc := hacc t c con h hproc hpar
    rw [Core.callbacks]
    cases hres : c.onAccept con with
    | mk res c1 =>
      rw [hres] at hacc
      rcases hacc with ⟨hok, hmid⟩ | herr
      · dsimp only at hok
        subst hok
        exact ih hmid
      · dsimp only at herr
        subst herr
        exact Or.inr rfl
  | @reject t t' con ds hproc hrep ih => exact ih (hrej t c con h)

/-- The same for a turn of `recordPolls`. -/
theorem recordPoll_rule (I : Tree → Core T → Prop)
    (hacc : ∀ t c con, I t c → t.procs con.id = some con → con.parentID = t.last →
      ((c.onAccept con).1 = .ok () ∧ I (t.accept con) (c.onAccept con).2) ∨
        (c.onAccept con).1 = .error (.sink (.bus .txn)))
    (hrej : ∀ t c con, I t c → I (t.reject con) (c.onReject con))
    (hcons : ∀ t c cons, I t c → I t { c with cons := cons }) {tree : T → Tree}
    (hS : S.topo.Contract tree) (votes : V) (h : I (tree c.cons) c) :
    (I (tree (S.topo.recordPoll c.cons votes).2) (c.recordPoll S votes).2 ∧
      (c.recordPoll S votes).2.cons = (S.topo.recordPoll c.cons votes).2 ∧
      (c.recordPoll S votes).2.fatal = c.fatal) ∨ (c.recordPoll S votes).2.BusFailed := by
  have hcall := callbacks_rule I hacc hrej (hS.decisions c.cons votes) h
  have hfatal := (callbacks_counts (S.topo.recordPoll c.cons votes).1 c).1
  rw [Core.recordPoll]
  cases hres : c.callbacks (S.topo.recordPoll c.cons votes).1 with
  | mk res nc =>
    obtain ⟨n, c'⟩ := nc
    rw [hres] at hcall hfatal
    rcases hcall with ⟨hok, hI⟩ | herr
    · dsimp only at hok hI hfatal
      subst hok
      exact Or.inl ⟨hcons _ _ _ hI, rfl, hfatal⟩
    · dsimp only at herr
      subst herr
      exact Or.inr (busFailed_fail _ rfl)

theorem CoreInv.recordPoll {tree : T → Tree} (h : CoreInv U Tag tree c)
    (hS : S.topo.Contract tree) (hU : HeadersByHash U) (hT : ∀ b, Tag b → Heads U b) (votes : V) :
    CoreInv U Tag tree (c.recordPoll S votes).2 ∨ (c.recordPoll S votes).2.BusFailed := by
  refine (recordPoll_rule (Mid U Tag) (fun t c con hm hproc hpar => ?_)
    (fun t c con hm => hm.onReject con)
    (fun t c cons hm => hm.congr rfl rfl rfl rfl rfl rfl rfl rfl) hS votes h.mid).imp_left ?_
  · exact (hm.onAccept hU hT hproc hpar).imp_left (fun ⟨hok, hm', _⟩ => ⟨hok, hm'⟩)
  · rintro ⟨hm, hcons, hfatal⟩
    refine ⟨?_, ?_, ?_⟩
    · rw [hcons]
      exact hm
    · rw [hcons]
      exact hS.rooted _ votes h.rooted
    · rw [hfatal]
      exact h.clean

/-! ## A container -/

/-- A container that was issued was there before. -/
theorem get_set_issued {recs : Table ID Rec} {con : Container} {id : ID} {r : Rec}
    (hr : (recs.set con.id ⟨con, false, []⟩).get id = some r) (hi : r.issued = true) :
    recs.get id = some r := by
  rcases Table.get_set_eq_some_iff.mp hr with ⟨-, rfl⟩ | ⟨-, hr⟩
  · cases hi
  · exact hr

theorem CoreInv.insert {tree : T → Tree} (h : CoreInv U Tag tree c) {con : Container} (hcon : U con)
    (hnew : c.recs.get con.id = none) (hlast : con.id ≠ c.lastAcceptedID)
    (hnum : c.lastAcceptedHeight < con.eth.number) :
    CoreInv U Tag tree { c with recs := c.recs.set con.id ⟨con, false, []⟩ } := by
  have hold : ∀ id r, (c.recs.set con.id ⟨con, false, []⟩).get id = some r → r.issued = true →
      c.recs.get id = some r := fun _ _ => get_set_issued
  have hm := h.mid
  refine ⟨?_, h.rooted, h.clean⟩
  exact {
    recs := fun id r hr => by
      rcases Table.get_set_eq_some_iff.mp hr with ⟨rfl, rfl⟩ | ⟨-, hr⟩
      · exact ⟨rfl, hcon⟩
      · exact hm.recs id r hr
    fresh := fun id r hr hi => by
      rcases Table.get_set_eq_some_iff.mp hr with ⟨-, rfl⟩ | ⟨-, hr⟩
      · exact hnum
      · exact hm.fresh id r hr hi
    lastRec := by
      dsimp only
      rw [Table.get_set_of_ne _ _ (Ne.symm hlast)]
      exact hm.lastRec
    procs := fun id con' => by
      rw [hm.procs id con']
      constructor
      · rintro ⟨r, hr, hi, rfl⟩
        refine ⟨r, ?_, hi, rfl⟩
        have hne : id ≠ con.id := by
          rintro rfl
          rw [hnew] at hr
          cases hr
        dsimp only
        rw [Table.get_set_of_ne _ _ hne]
        exact hr
      · rintro ⟨r, hr, hi, rfl⟩
        exact ⟨r, hold id r hr hi, hi, rfl⟩
    last := hm.last
    lastU := hm.lastU
    onLast := fun id r hr hi => hm.onLast id r (hold id r hr hi) hi
    onRec := fun id r p hr hi hp hpi => hm.onRec id r p (hold id r hr hi) hi (hold _ p hp hpi) hpi
    published := hm.published
    height := hm.height
    hash := hm.hash
    table := fun id r hr hi => hm.table id r (hold id r hr hi) hi
    feeds := hm.feeds
    feedHeight := hm.feedHeight
    feedHash := hm.feedHash
    known := hm.known }

/-- Dropping a container that is not issued. -/
theorem Mid.drop (h : Mid U Tag t c) {id : ID} {r : Rec} (hr : c.recs.get id = some r)
    (hi : r.issued = false) : Mid U Tag t { c with recs := c.recs.erase r.c.id } := by
  obtain ⟨rfl, -⟩ := h.recs id r hr
  have htree : t.reject r.c = t := by
    rw [Tree.reject, ← h.procs_none hr hi, Function.update_eq_self]
  have hmid := h.onReject r.c
  rw [htree] at hmid
  exact hmid.congr rfl rfl rfl rfl rfl rfl rfl rfl

theorem verified_above {t : Tracker} {b : Batch} (hlt : t.finalizedHeight < b.block) :
    t.verified b = { t with table := t.table.set b.hash b } := by
  rw [Tracker.verified, if_neg (UInt64.not_le.mpr hlt)]

/-- Verifying a tagged batch above the accepted block. -/
theorem Mid.verified (h : Mid U Tag t c) {b : Batch} (hb : Tag b)
    (habove : c.lastAcceptedHeight < b.block) :
    Mid U Tag t (c.verified b) ∧ (c.verified b).host.tracker.table.get b.hash = some b := by
  have htr : (c.verified b).host.tracker =
      { c.host.tracker with table := c.host.tracker.table.set b.hash b } :=
    verified_above (by rw [h.height]; exact habove)
  have hfeed : (c.verified b).feed = c.feed.next (.verified b) := feed_concat c _ rfl rfl
  refine ⟨{ h with
    published := h.published.verified hb
    height := ?_
    hash := ?_
    table := fun id r hr hi hlt => ?_
    feeds := feeds_concat h.feeds trivial
    feedHeight := ?_
    feedHash := ?_
    known := fun k b' hk => ?_ }, ?_⟩
  · rw [htr]
    exact h.height
  · rw [htr]
    exact h.hash
  · rw [htr]
    dsimp only
    rw [Table.get_set]
    split
    · simp
    · exact h.table id r hr hi hlt
  · rw [hfeed]
    exact h.feedHeight
  · rw [hfeed]
    exact h.feedHash
  · rw [htr] at hk
    dsimp only at hk
    rw [hfeed]
    show Function.update c.feed.known b.hash (some b) k = some b'
    rw [Table.get_set] at hk
    by_cases hkb : k = b.hash
    · rw [if_pos hkb] at hk
      rw [hkb, Function.update_self, hk]
    · rw [if_neg hkb] at hk
      rw [Function.update_of_ne hkb]
      exact h.known k b' hk
  · rw [htr]
    exact Table.get_set_self _ _ _

/-- The parent `tryIssue` finds: a delivered container that is accepted or issued. -/
theorem CoreInv.parentOf {tree : T → Tree} (h : CoreInv U Tag tree c) {r : Rec}
    {p : Hash × UInt64 × List Batch} (hp : c.parentOf r = some p) :
    (∃ pc, U pc ∧ pc.eth.hash = p.1 ∧ pc.eth.number = p.2.1) ∧
      (tree c.cons).Descends r.c.parentID ∧
      (r.c.parentID = c.lastAcceptedID → p.1 = c.lastAcceptedEthHash ∧ p.2.1 = c.lastAcceptedHeight) ∧
      ∀ pr, c.recs.get r.c.parentID = some pr →
        pr.issued = true ∧ pr.c.eth.hash = p.1 ∧ pr.c.eth.number = p.2.1 := by
  rw [Core.parentOf] at hp
  split at hp
  · rename_i hlast
    obtain rfl := Option.some.inj hp
    refine ⟨h.mid.lastU, ?_, fun _ => ⟨rfl, rfl⟩, fun pr hpr => ?_⟩
    · rw [hlast, ← h.mid.last]
      exact .last
    · exact absurd hlast (h.mid.ne_last hpr)
  · rename_i hlast
    cases hpr : c.recs.get r.c.parentID with
    | none => simp [hpr] at hp
    | some pr =>
      rw [hpr] at hp
      dsimp only at hp
      split at hp
      · rename_i hiss
        obtain rfl := Option.some.inj hp
        refine ⟨⟨pr.c, (h.mid.recs _ pr hpr).2, rfl, rfl⟩, ?_, fun hl => absurd hl hlast, ?_⟩
        · exact h.rooted _ pr.c ((h.mid.procs _ pr.c).mpr ⟨pr, hpr, hiss, rfl⟩)
        · intro pr' hpr'
          obtain rfl := Option.some.inj hpr'
          exact ⟨hiss, rfl, rfl⟩
      · cases hp

theorem Tree.Descends.mono {t t' : Tree} (hl : t'.last = t.last)
    (hp : ∀ id con, t.procs id = some con → t'.procs id = some con) {id : ID} (h : t.Descends id) :
    t'.Descends id := by
  induction h with
  | last =>
    rw [← hl]
    exact .last
  | step hproc h ih => exact .step (hp _ _ hproc) ih

theorem Tree.Descends.inv {t : Tree} {id : ID} (h : t.Descends id) :
    id = t.last ∨ ∃ con, t.procs id = some con ∧ t.Descends con.parentID := by
  cases h with
  | last => exact Or.inl rfl
  | step hproc h => exact Or.inr ⟨_, hproc, h⟩

/-- What was not processing leaves the rest of the tree alone when it joins. -/
theorem Tree.insert_procs {t : Tree} {con c' : Container} {id : ID} (hnone : t.procs con.id = none)
    (h : t.procs id = some c') : (t.insert con).procs id = some c' := by
  show Function.update t.procs con.id (some con) id = some c'
  rw [Function.update_of_ne]
  · exact h
  · rintro rfl
    rw [hnone] at h
    cases h

theorem Tree.Rooted.insert {t : Tree} (h : t.Rooted) {con : Container}
    (hnone : t.procs con.id = none) (hdesc : t.Descends con.parentID) : (t.insert con).Rooted := by
  have hl : (t.insert con).last = t.last := rfl
  have hmono : ∀ id c', t.procs id = some c' → (t.insert con).procs id = some c' :=
    fun _ _ => Tree.insert_procs hnone
  intro id c' hc'
  have hproc : Function.update t.procs con.id (some con) id = some c' := hc'
  by_cases hid : id = con.id
  · subst hid
    exact .step (c := con) (Function.update_self _ _ _) (hdesc.mono hl hmono)
  · rw [Function.update_of_ne hid] at hproc
    exact (h id c' hproc).mono hl hmono

/-- Nothing issued stands on a container that is not. -/
theorem CoreInv.no_child {tree : T → Tree} (h : CoreInv U Tag tree c) {id id' : ID} {r r' : Rec}
    (hr : c.recs.get id = some r) (hi : r.issued = false) (hr' : c.recs.get id' = some r')
    (hi' : r'.issued = true) : r'.c.parentID ≠ id := by
  intro hpar
  have hm := h.mid
  have hproc := (hm.procs id' r'.c).mpr ⟨r', hr', hi', rfl⟩
  rcases (h.rooted id' r'.c hproc).inv with hid | ⟨con, hproc', hd⟩
  · exact hm.ne_last hr' (hid.trans hm.last)
  · obtain rfl := Option.some.inj (hproc.symm.trans hproc')
    rw [hpar] at hd
    rcases hd.inv with hid | ⟨con, hproc'', -⟩
    · exact hm.ne_last hr (hid.trans hm.last)
    · rw [hm.procs_none hr hi] at hproc''
      cases hproc''

/-- What was verified is issued: it joins the tree and the containers. -/
theorem CoreInv.marked {tree : T → Tree} (h : CoreInv U Tag tree c) {id : ID} {r : Rec}
    {p : Hash × UInt64 × List Batch} (hr : c.recs.get id = some r) (hi : r.issued = false)
    (hp : c.parentOf r = some p) (hph : r.c.eth.parentHash = p.1)
    (hpn : r.c.eth.number.toNat = p.2.1.toNat + 1)
    (htable : c.host.tracker.table.get r.c.eth.hash ≠ none) {cons : T}
    (htree : tree cons = (tree c.cons).insert r.c) (line : List Batch) :
    CoreInv U Tag tree (c.join cons ⟨r.c, true, line⟩) := by
  have hm := h.mid
  obtain ⟨rfl, hrU⟩ := hm.recs id r hr
  obtain ⟨-, hdesc, honLast, honRec⟩ := h.parentOf hp
  have hget : ∀ id' r', (c.recs.set r.c.id ⟨r.c, true, line⟩).get id' = some r' →
      (id' = r.c.id ∧ r' = ⟨r.c, true, line⟩) ∨ (id' ≠ r.c.id ∧ c.recs.get id' = some r') :=
    fun _ _ => Table.get_set_eq_some_iff.mp
  refine ⟨?_, ?_, h.clean⟩
  · show Mid U Tag (tree cons) _
    rw [htree]
    exact {
      recs := fun id' r' hr' => by
        rcases hget id' r' hr' with ⟨rfl, rfl⟩ | ⟨-, hold⟩
        · exact ⟨rfl, hrU⟩
        · exact hm.recs id' r' hold
      fresh := fun id' r' hr' hi' => by
        rcases hget id' r' hr' with ⟨rfl, rfl⟩ | ⟨-, hold⟩
        · cases hi'
        · exact hm.fresh id' r' hold hi'
      lastRec := by
        dsimp only [Core.join]
        rw [Table.get_set_of_ne _ _ (hm.ne_last hr).symm]
        exact hm.lastRec
      procs := fun id' con => by
        show Function.update (tree c.cons).procs r.c.id (some r.c) id' = some con ↔
          ∃ r', (c.recs.set r.c.id ⟨r.c, true, line⟩).get id' = some r' ∧ _
        by_cases hid : id' = r.c.id
        · subst hid
          rw [Function.update_self, Table.get_set_self]
          simp
        · rw [Function.update_of_ne hid, Table.get_set_of_ne _ _ hid]
          exact hm.procs id' con
      last := hm.last
      lastU := hm.lastU
      onLast := fun id' r' hr' hi' hpar => by
        rcases hget id' r' hr' with ⟨rfl, rfl⟩ | ⟨-, hold⟩
        · obtain ⟨h1, h2⟩ := honLast hpar
          exact ⟨hph.trans h1, h2 ▸ hpn⟩
        · exact hm.onLast id' r' hold hi' hpar
      onRec := fun id' r' q hr' hi' hq hqi => by
        rcases hget id' r' hr' with ⟨rfl, rfl⟩ | ⟨-, hold⟩
        · rcases hget _ q hq with ⟨heq, -⟩ | ⟨-, hqold⟩
          · have hself := (honRec r (by
              rw [show r.c.parentID = r.c.id from heq]
              exact hr)).1
            rw [hi] at hself
            cases hself
          · obtain ⟨-, h1, h2⟩ := honRec q hqold
            exact ⟨hph.trans h1.symm, h2 ▸ hpn⟩
        · rcases hget _ q hq with ⟨heq, -⟩ | ⟨-, hqold⟩
          · exact absurd heq (h.no_child hr hi hold hi')
          · exact hm.onRec id' r' q hold hi' hqold hqi
      published := hm.published
      height := hm.height
      hash := hm.hash
      table := fun id' r' hr' hi' habove => by
        rcases hget id' r' hr' with ⟨rfl, rfl⟩ | ⟨-, hold⟩
        · exact htable
        · exact hm.table id' r' hold hi' habove
      feeds := hm.feeds
      feedHeight := hm.feedHeight
      feedHash := hm.feedHash
      known := hm.known }
  · show (tree cons).Rooted
    rw [htree]
    exact Tree.Rooted.insert h.rooted (hm.procs_none hr hi) hdesc

theorem CoreInv.fail {tree : T → Tree} (h : CoreInv U Tag tree c) {f : Fatal}
    (hf : f.isSink = false) : CoreInv U Tag tree (c.fail f) := by
  refine ⟨h.mid.congr rfl rfl rfl rfl rfl rfl rfl rfl, h.rooted, fun g hg => ?_⟩
  rcases List.mem_append.mp hg with hg | hg
  · exact h.clean g hg
  · rwa [List.mem_singleton.mp hg]

/-- What `Execute` returns is the batch of the block on the parent it was given. -/
theorem execute_ok (c : Core T) {parent : Hash} {line : List Batch} {blk : EthBlock} {b : Batch}
    (h : (c.execute S parent line blk).1 = .ok b) :
    ∃ ops, S.evm.ops (readKey S.keccak c.host.handle c.host.sink.env (c.host.exec.viewAt parent)) blk =
      .ok ops ∧ b = blk.batch parent ops := by
  have hexec : (c.host.exec.execute S.evm S.keccak c.host.handle c.host.sink.env parent blk).1 =
      .ok b := h
  rcases execute_cases S.evm S.keccak c.host.handle c.host.sink.env c.host.exec parent blk with
    ⟨x, hx⟩ | ⟨ops, hops, hx⟩
  · rw [hx] at hexec
    cases hexec
  · rw [hx] at hexec
    exact ⟨ops, hops, (Except.ok.inj hexec).symm⟩

/-- A container that is not issued is above the accepted one, so its number is not a sum
that wrapped around. -/
theorem Mid.number_succ (h : Mid U Tag t c) {id : ID} {r : Rec} (hr : c.recs.get id = some r)
    (hi : r.issued = false) {n : UInt64} (hn : r.c.eth.number = n + 1) :
    r.c.eth.number.toNat = n.toNat + 1 := by
  have hpos := UInt64.lt_iff_toNat_lt.mp (h.fresh id r hr hi)
  rw [hn, UInt64.toNat_add] at hpos ⊢
  have := n.toNat_lt
  simp only [UInt64.toNat_one] at hpos ⊢
  omega

/-- A container whose parent is accepted or issued was executed and consensus has taken
it: its batch is verified and it is marked as issued. -/
theorem CoreInv.joined {tree : T → Tree} (h : CoreInv U Tag tree c) (hS : S.topo.Contract tree)
    {id : ID} {r : Rec} {p : Hash × UInt64 × List Batch} (hr : c.recs.get id = some r)
    (hi : r.issued = false) (hp : c.parentOf r = some p) (hph : r.c.eth.parentHash = p.1)
    (hn : r.c.eth.number = p.2.1 + 1)
    (hTag : ∀ b, r.c.eth.parentHash = p.1 → r.c.eth.number = p.2.1 + 1 →
      (c.execute S p.1 p.2.2 r.c.eth).1 = .ok b → Heads U b → Tag b)
    {b : Batch} {c1 : Core T} (hres : c.execute S p.1 p.2.2 r.c.eth = (.ok b, c1)) :
    CoreInv U Tag tree (c1.verified b) ∧
      ∀ cons, S.topo.add (c1.verified b).cons r.c = some cons → ∀ line,
        CoreInv U Tag tree ((c1.verified b).join cons ⟨r.c, true, line⟩) := by
  have hm := h.mid
  obtain ⟨hid, hrU⟩ := hm.recs id r hr
  obtain ⟨⟨pc, hpcU, hpch, hpcn⟩, -⟩ := h.parentOf hp
  have hpn := hm.number_succ hr hi hn
  have hexec : CoreInv U Tag tree (c.execute S p.1 p.2.2 r.c.eth).2 :=
    ⟨hm.congr rfl rfl rfl rfl rfl rfl rfl rfl, h.rooted, h.clean⟩
  have hrecs : (c.execute S p.1 p.2.2 r.c.eth).2.recs.get id = some r := hr
  have hpar : (c.execute S p.1 p.2.2 r.c.eth).2.parentOf r = some p := hp
  have hlast : (c.execute S p.1 p.2.2 r.c.eth).2.lastAcceptedHeight < r.c.eth.number :=
    hm.fresh id r hr hi
  have hbok : (c.execute S p.1 p.2.2 r.c.eth).1 = .ok b := by rw [hres]
  rw [hres] at hexec hrecs hpar hlast
  obtain ⟨ops, -, hb⟩ := execute_ok c hbok
  have hheads : Heads U b := by
    rw [hb]
    exact ⟨r.c, pc, hrU, hpcU, rfl, hpch.symm, rfl, hph.trans hpch.symm, by rw [hpn, hpcn]⟩
  have hbh : b.hash = r.c.eth.hash := by rw [hb]; rfl
  have hbn : b.block = r.c.eth.number := by rw [hb]; rfl
  obtain ⟨hver, htab⟩ := hexec.mid.verified (hTag b hph hn hbok hheads) (by rw [hbn]; exact hlast)
  have hverInv : CoreInv U Tag tree (c1.verified b) := ⟨hver, hexec.rooted, hexec.clean⟩
  refine ⟨hverInv, fun cons hadd line => ?_⟩
  have hprocs : (tree (c1.verified b).cons).procs r.c.id = none :=
    hver.procs_none (hid ▸ hrecs) hi
  have hdesc := (hverInv.parentOf (r := r) (p := p) hpar).2.1
  have htree := hS.add _ _ _ hadd hprocs hdesc
  exact hverInv.marked hrecs hi hpar hph hpn (by rw [← hbh, htab]; simp) htree line

/-- Issuing a container whose parent is accepted or issued. -/
theorem CoreInv.issue {tree : T → Tree} (h : CoreInv U Tag tree c) (hS : S.topo.Contract tree)
    (hU : HeadersByHash U) (hT : ∀ b, Tag b → Heads U b) {id : ID} {r : Rec}
    {p : Hash × UInt64 × List Batch} (hr : c.recs.get id = some r) (hi : r.issued = false)
    (hp : c.parentOf r = some p)
    (hTag : ∀ b, r.c.eth.parentHash = p.1 → r.c.eth.number = p.2.1 + 1 →
      (c.execute S p.1 p.2.2 r.c.eth).1 = .ok b → Heads U b → Tag b) :
    CoreInv U Tag tree (c.issue S r p).2 ∨ (c.issue S r p).2.BusFailed := by
  rw [Core.issue]
  split
  · exact Or.inl ⟨h.mid.drop hr hi, h.rooted, h.clean⟩
  · rename_i hmatch
    rw [not_or, not_not, not_not] at hmatch
    obtain ⟨hph, hn⟩ := hmatch
    have hexec : CoreInv U Tag tree (c.execute S p.1 p.2.2 r.c.eth).2 :=
      ⟨h.mid.congr rfl rfl rfl rfl rfl rfl rfl rfl, h.rooted, h.clean⟩
    cases hres : c.execute S p.1 p.2.2 r.c.eth with
    | mk res c1 =>
      rw [hres] at hexec
      cases res with
      | error x => exact Or.inl (hexec.fail rfl)
      | ok b =>
        obtain ⟨hver, hjoin⟩ := h.joined hS hr hi hp hph hn hTag hres
        dsimp only
        split
        · exact Or.inl (hver.fail rfl)
        · rename_i cons hadd
          exact (hjoin cons hadd (p.2.2 ++ [b])).emitHead hS hU hT

/-! ## Failures and sinks made are not forgotten -/

structure Grows (c c' : Core T) : Prop where
  fatal : c.fatal <+: c'.fatal
  made : c.made ≤ c'.made

theorem Grows.refl (c : Core T) : Grows c c := ⟨List.prefix_rfl, Nat.le_refl _⟩

/-- Changes of other fields. -/
theorem Grows.congr {c c' c'' : Core T} (h : Grows c c') (hf : c''.fatal = c'.fatal)
    (hm : c''.made = c'.made) : Grows c c'' :=
  ⟨hf ▸ h.fatal, hm ▸ h.made⟩

theorem Grows.trans {c c' c'' : Core T} (h : Grows c c') (h' : Grows c' c'') : Grows c c'' :=
  ⟨h.fatal.trans h'.fatal, h.made.trans h'.made⟩

theorem Grows.fail {c c' : Core T} (h : Grows c c') (f : Fatal) : Grows c (c'.fail f) :=
  ⟨h.fatal.trans ⟨[f], rfl⟩, h.made⟩

theorem busFailed_mono {c c' : Core T} (h : c.BusFailed) (hg : Grows c c') : c'.BusFailed := by
  obtain ⟨f, hm, hb⟩ := h
  exact ⟨f, hg.fatal.subset hm, hb⟩

theorem grows_emitHead (c : Core T) : Grows c (c.emitHead S) := by
  rw [Core.emitHead]
  cases c.prefHash S with
  | none => exact .refl c
  | some h =>
    dsimp only
    split
    · exact .refl c
    · have hhead : Grows c (Core.head { c with lastPref := h } h).2 := ⟨List.prefix_rfl, Nat.le_refl _⟩
      cases hres : Core.head { c with lastPref := h } h with
      | mk res c' =>
        rw [hres] at hhead
        cases res with
        | ok u => exact hhead
        | error e => exact hhead.fail _

theorem grows_recordPoll (c : Core T) (votes : V) : Grows c (c.recordPoll S votes).2 := by
  obtain ⟨hfatal, hmade⟩ := callbacks_counts (S.topo.recordPoll c.cons votes).1 c
  rw [Core.recordPoll]
  cases hres : c.callbacks (S.topo.recordPoll c.cons votes).1 with
  | mk res nc =>
    obtain ⟨n, c'⟩ := nc
    rw [hres] at hfatal hmade
    have hg : ∀ t, Grows c { c' with cons := t } :=
      fun t => ⟨⟨[], by rw [List.append_nil]; exact hfatal.symm⟩, Nat.le_of_eq hmade.symm⟩
    cases res with
    | ok u => exact hg _
    | error e => exact (hg _).fail _

theorem grows_issue (c : Core T) (r : Rec) (p : Hash × UInt64 × List Batch) :
    Grows c (c.issue S r p).2 := by
  have hexec : Grows c (c.execute S p.1 p.2.2 r.c.eth).2 := (Grows.refl c).congr rfl rfl
  rw [Core.issue]
  split
  · exact (Grows.refl c).congr rfl rfl
  · cases hres : c.execute S p.1 p.2.2 r.c.eth with
    | mk res c1 =>
      rw [hres] at hexec
      cases res with
      | error x => exact hexec.fail _
      | ok b =>
        have hver : Grows c (c1.verified b) := hexec.congr rfl rfl
        dsimp only
        split
        · exact hver.fail _
        · rename_i cons _
          have hjoin : Grows c ((c1.verified b).join cons ⟨r.c, true, p.2.2 ++ [b]⟩) :=
            hver.congr rfl rfl
          exact hjoin.trans (grows_emitHead _)

theorem Move.grows {c c' : Core T} (h : Move S U c c') : Grows c c' := by
  cases h with
  | insert _ _ _ _ _ | wait _ => exact (Grows.refl c).congr rfl rfl
  | issue hr hi hp => exact grows_issue _ _ _
  | poll votes => exact grows_recordPoll _ votes
  | head => exact grows_emitHead _

end Steps

/-! ## Moves -/

/-- Every move keeps the invariant, unless the bus cannot commit. -/
theorem CoreInv.move {tree : T → Tree} {c c' : Core T} (h : CoreInv U (Heads U) tree c)
    (hS : S.topo.Contract tree) (hU : HeadersByHash U) (hmove : Move S U c c') :
    CoreInv U (Heads U) tree c' ∨ c'.BusFailed := by
  have hT : ∀ b, Heads U b → Heads U b := fun _ hb => hb
  cases hmove with
  | insert con hcon hnew hlast hnum => exact Or.inl (h.insert hcon hnew hlast hnum)
  | wait pending =>
    exact Or.inl ⟨h.mid.congr rfl rfl rfl rfl rfl rfl rfl rfl, h.rooted, h.clean⟩
  | issue hr hi hp => exact h.issue hS hU hT hr hi hp (fun _ _ _ _ hb => hb)
  | poll votes => exact h.recordPoll hS hU hT votes
  | head => exact h.emitHead hS hU hT

theorem CoreInv.moves {tree : T → Tree} {c c' : Core T}
    (h : CoreInv U (Heads U) tree c ∨ c.BusFailed) (hS : S.topo.Contract tree)
    (hU : HeadersByHash U) (hmoves : Moves S U c c') :
    CoreInv U (Heads U) tree c' ∨ c'.BusFailed := by
  induction hmoves with
  | refl => exact h
  | tail hmoves hmove ih =>
    rcases ih with hinv | hbus
    · exact hinv.move hS hU hmove
    · exact Or.inr (busFailed_mono hbus hmove.grows)

end Flatstate.Consensus
