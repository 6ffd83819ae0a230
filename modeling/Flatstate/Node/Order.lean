import Flatstate.Node.Calls
import Flatstate.Node.Writer

set_option autoImplicit false

/-!
# Node: the order of a finalization (`node/tracker.go` over `node/sink.go`)

The tracker turns verified blocks, heads and acceptances into calls of the sink, and
`Sink.Finalize` takes the store, the tip view, the watermark and the bus one after the
other.  The transition system of this module stops between any two of these steps.

A run keeps, as ghosts, the blocks whose main store transaction was committed for an
acceptance and what was written for them, and how often the watermark moved and the bus
was told.
-/

namespace Flatstate.Node

open Foundation Schema Capture Store Tipbus

/-! ## Steps -/

/-- Where a call of the tracker is. -/
inductive Point where
  | idle
  /-- in `Tracker.Accepted`, the accepted block being the oldest published one -/
  | accepting (block : UInt64) (hash : Hash)
  /-- in `Sink.Finalize`, after the main store transaction -/
  | written (block : UInt64) (hash : Hash)
  /-- after the tip view has folded the block -/
  | folded (block : UInt64) (hash : Hash)
  /-- after the watermark has moved -/
  | marked (block : UInt64) (hash : Hash)
  /-- a sink call has failed; `mid` tells whether a finalization was under way -/
  | halted (mid : Bool)

namespace Point

/-- The blocks in the store that the tip view has not folded. -/
def unfolded : Point → Nat
  | written _ _ => 1
  | _ => 0

/-- The blocks in the store that are not under the watermark. -/
def unmarked : Point → Nat
  | written _ _ | folded _ _ => 1
  | _ => 0

/-- The blocks in the store that the bus has not announced. -/
def unannounced : Point → Nat
  | written _ _ | folded _ _ | marked _ _ | halted true => 1
  | _ => 0

/-- Where a call stands once a part of it has returned. -/
def after (next : Point) : Except TrackErr Unit → Point
  | .ok () => next
  | .error (.sink _) => halted false
  | .error _ => idle

/-- A finalization folds the block, then marks it, then announces it. -/
theorem bounds (p : Point) :
    p.unfolded ≤ p.unmarked ∧ p.unmarked ≤ p.unannounced ∧ p.unannounced ≤ 1 := by
  rcases p with _ | _ | _ | _ | _ | (_ | _) <;> simp [unfolded, unmarked, unannounced]

/-- Where the bus is behind the watermark. -/
theorem lag {p : Point} (hm : p.unmarked = 0) (ha : p.unannounced = 1) :
    p = .halted true ∨ ∃ block hash, p = .marked block hash := by
  cases p with
  | idle | accepting => cases ha
  | written | folded => cases hm
  | marked block hash => exact Or.inr ⟨block, hash, rfl⟩
  | halted mid =>
    cases mid with
    | false => cases ha
    | true => exact Or.inl rfl

end Point

/-- The tracker over its sink, where the current call is, and what has happened. -/
structure Tracking where
  tracker : Tracker
  sink : Sink
  point : Point
  /-- the acceptances that reached the main store -/
  accepted : List (UInt64 × Hash)
  /-- what was written for them -/
  written : List Batch
  /-- the number of moves of the watermark -/
  marks : Nat
  /-- the number of finalizations the bus was told of -/
  announced : Nat

/-- The steps of the tracker's calls, for verified batches of which `Tag` holds. -/
inductive TrackStep (Tag : Batch → Prop) : Tracking → Tracking → Prop where
  | verified {r : Tracking} {b : Batch} (hi : r.point = .idle) (hb : Tag b) :
      TrackStep Tag r { r with tracker := r.tracker.verified b }
  | head {r : Tracking} (hash : Hash) (hi : r.point = .idle) :
      TrackStep Tag r
        { r with
          tracker := (r.tracker.head r.sink hash).2.1
          sink := (r.tracker.head r.sink hash).2.2
          point := Point.after .idle (r.tracker.head r.sink hash).1 }
  | accept {r : Tracking} (block : UInt64) (hash : Hash) (hi : r.point = .idle) :
      TrackStep Tag r
        { r with
          tracker := (r.tracker.publishAccepted r.sink block hash).2.1
          sink := (r.tracker.publishAccepted r.sink block hash).2.2
          point := Point.after (.accepting block hash)
            (r.tracker.publishAccepted r.sink block hash).1 }
  /-- `Sink.Finalize` refuses -/
  | refuse {r : Tracking} {block : UInt64} {hash : Hash} {e : NodeErr}
      (hi : r.point = .accepting block hash) (hc : r.sink.finalizeCheck block hash = .error e) :
      TrackStep Tag r { r with point := .idle }
  /-- the main store transaction does not commit -/
  | abort {r : Tracking} {block : UInt64} {hash : Hash} {b : Batch}
      (hi : r.point = .accepting block hash) (hc : r.sink.finalizeCheck block hash = .ok b) :
      TrackStep Tag r { r with point := .idle }
  | write {r : Tracking} {block : UInt64} {hash : Hash} {b : Batch}
      (hi : r.point = .accepting block hash) (hc : r.sink.finalizeCheck block hash = .ok b)
      (hfit : (b.encode []).length < 2 ^ 32) :
      TrackStep Tag r
        { r with
          sink := r.sink.finalizeWrite b
          point := .written block hash
          accepted := r.accepted ++ [(block, hash)]
          written := r.written ++ [b] }
  | fold {r : Tracking} {block : UInt64} {hash : Hash} (hi : r.point = .written block hash) :
      TrackStep Tag r
        { r with
          sink := (r.sink.finalizeFold block hash).2
          point :=
            if (r.sink.finalizeFold block hash).1 = .ok () then .folded block hash
            else .halted true }
  | mark {r : Tracking} {block : UInt64} {hash : Hash} (hi : r.point = .folded block hash) :
      TrackStep Tag r
        { r with
          sink := r.sink.finalizeMark block
          point := .marked block hash
          marks := r.marks + 1 }
  | publish {r : Tracking} {block : UInt64} {hash : Hash} (hi : r.point = .marked block hash)
      (hok : (r.sink.finalizePublish none block hash).1 = .ok ()) :
      TrackStep Tag r
        { r with
          tracker := r.tracker.finalized block hash
          sink := (r.sink.finalizePublish none block hash).2
          point := .idle
          announced := r.announced + 1 }
  | publishFails {r : Tracking} {block : UInt64} {hash : Hash}
      (hi : r.point = .marked block hash)
      (herr : (r.sink.finalizePublish none block hash).1 ≠ .ok ()) :
      TrackStep Tag r
        { r with
          sink := (r.sink.finalizePublish none block hash).2
          point := .halted true }

/-- No block above `start` has rows in the main store. -/
def Ends (start : UInt64) (env : Env) : Prop :=
  ∀ h, start < h → row env (.diff h) = none ∧ ∀ t, row env (.history t h) = none

/-- The runs of the tracker: a new view on a store that ends at `start`, the finalized
block, and a truncated bus. -/
inductive TrackRun (Tag : Batch → Prop) (start : UInt64) (root : Hash) (env : Env) :
    Tracking → Prop where
  | init (f : Option UInt64) :
      TrackRun Tag start root env
        ⟨newTracker start root, newSink env (Mem.State.new f) openWriter, .idle, [], [], 0, 0⟩
  | step {r r' : Tracking} (hr : TrackRun Tag start root env r) (hs : TrackStep Tag r r') :
      TrackRun Tag start root env r'

/-! ## The rows of the store -/

/-- The block of height `h`, given the blocks above `start`. -/
def blockAt (start : UInt64) (bs : List Batch) (h : UInt64) : Option Batch :=
  if start < h then bs[h.toNat - start.toNat - 1]? else none

/-- Above `start` the store holds the rows of the blocks `bs` and no others; the rest is as
it was in `env₀`. -/
structure RowsAre (start : UInt64) (env₀ : Env) (bs : List Batch) (env : Env) : Prop where
  diff : ∀ h, row env (.diff h) =
    if start < h then (blockAt start bs h).map (fun b => b.encode []) else row env₀ (.diff h)
  history : ∀ t h, row env (.history t h) =
    if start < h then (blockAt start bs h).bind (fun b => lastRow b.ops t)
    else row env₀ (.history t h)

section Rows

variable {start : UInt64} {env₀ env : Env} {bs : List Batch}

theorem blockAt_nil (h : UInt64) : blockAt start [] h = none := by
  simp [blockAt]

theorem blockAt_concat {b : Batch} (hb : b.block.toNat = start.toNat + bs.length + 1)
    (h : UInt64) :
    blockAt start (bs ++ [b]) h = if h = b.block then some b else blockAt start bs h := by
  have hlt : start < b.block := by
    rw [UInt64.lt_iff_toNat_lt, hb]
    omega
  rw [blockAt, blockAt]
  by_cases heq : h = b.block
  · rw [if_pos heq, heq, if_pos hlt, hb,
      show start.toNat + bs.length + 1 - start.toNat - 1 = bs.length by omega,
      List.getElem?_concat_length]
  · rw [if_neg heq]
    split
    · rename_i hh
      rw [UInt64.lt_iff_toNat_lt] at hh
      have hne : h.toNat ≠ start.toNat + bs.length + 1 := fun he =>
        heq (UInt64.toNat_inj.mp (he.trans hb.symm))
      rcases Nat.lt_or_ge (h.toNat - start.toNat - 1) bs.length with hi | hi
      · rw [List.getElem?_append_left hi]
      · rw [List.getElem?_eq_none hi, List.getElem?_eq_none]
        rw [List.length_append, List.length_singleton]
        omega
    · rfl

theorem RowsAre.init (h : Ends start env) : RowsAre start env [] env where
  diff hh := by
    split
    · rename_i hlt
      rw [blockAt_nil, (h hh hlt).1]
      rfl
    · rfl
  history t hh := by
    split
    · rename_i hlt
      rw [blockAt_nil, (h hh hlt).2]
      rfl
    · rfl

/-- Writing the next block. -/
theorem RowsAre.write (h : RowsAre start env₀ bs env) {b : Batch}
    (hb : b.block.toNat = start.toNat + bs.length + 1) :
    RowsAre start env₀ (bs ++ [b]) (writeBlock env b) := by
  have hlt : start < b.block := by
    rw [UInt64.lt_iff_toNat_lt, hb]
    omega
  have hnone : blockAt start bs b.block = none := by
    rw [blockAt, if_pos hlt, hb, List.getElem?_eq_none]
    omega
  constructor
  · intro hh
    rw [row_writeBlock_diff, blockAt_concat hb]
    by_cases heq : hh = b.block
    · rw [if_pos heq, if_pos heq, heq, if_pos hlt]
      rfl
    · rw [if_neg heq, if_neg heq, h.diff]
  · intro t hh
    rw [row_writeBlock_history, blockAt_concat hb]
    by_cases heq : hh = b.block
    · rw [if_pos heq, if_pos heq, h.history, heq, if_pos hlt, if_pos hlt, hnone]
      simp
    · rw [if_neg heq, if_neg heq, h.history]

theorem RowsAre.setFinalized (h : RowsAre start env₀ bs env) (F : UInt64) :
    RowsAre start env₀ bs (setFinalized env F) where
  diff hh := by
    rw [row_setFinalized _ _ (by simp)]
    exact h.diff hh
  history t hh := by
    rw [row_setFinalized _ _ (by simp)]
    exact h.history t hh

end Rows

/-! ## The invariant -/

/-- Between two calls of the sink. -/
structure Between (Tag : Batch → Prop) (num : Hash → Nat) (start : UInt64) (root : Hash)
    (r : Tracking) : Prop where
  published : Published Tag num r.tracker r.sink
  live : Live r.sink
  height : r.tracker.finalizedHeight.toNat = start.toNat + r.written.length
  last : r.tracker.finalizedHash = (r.written.getLast?.map Batch.hash).getD root

/-- Inside `Sink.Finalize`, which was called in `s` and found the batch `b`. -/
structure Finalizing (Tag : Batch → Prop) (num : Hash → Nat) (r : Tracking) (block : UInt64)
    (hash : Hash) (s : Sink) (b : Batch) : Prop where
  published : Published Tag num r.tracker s
  live : Live s
  head : r.tracker.stack.head?.map Batch.hash = some hash
  check : s.finalizeCheck block hash = .ok b
  last : r.written.getLast? = some b

/-- What holds where the current call is. -/
def Stands (Tag : Batch → Prop) (num : Hash → Nat) (start : UInt64) (root : Hash)
    (r : Tracking) : Prop :=
  match r.point with
  | .idle => Between Tag num start root r
  | .accepting _ hash =>
    Between Tag num start root r ∧ r.tracker.stack.head?.map Batch.hash = some hash
  | .written block hash =>
    ∃ s b, Finalizing Tag num r block hash s b ∧ r.sink = s.finalizeWrite b
  | .folded block hash =>
    ∃ s b, Finalizing Tag num r block hash s b ∧
      r.sink = ((s.finalizeWrite b).finalizeFold block hash).2
  | .marked block hash =>
    ∃ s b, Finalizing Tag num r block hash s b ∧
      r.sink = ((s.finalizeWrite b).finalizeFold block hash).2.finalizeMark block
  | .halted _ => True

/-- What holds in every state of a run. -/
structure TrackInv (Tag : Batch → Prop) (num : Hash → Nat) (start : UInt64) (root : Hash)
    (env : Env) (r : Tracking) : Prop where
  linked : Linked root start.toNat r.written
  fits : ∀ b ∈ r.written, (b.encode []).length < 2 ^ 32
  accepted : r.written.map (fun b => (b.block, b.hash)) = r.accepted
  rows : RowsAre start env r.written r.sink.env
  marks : r.marks + r.point.unmarked = r.written.length
  announced : r.announced + r.point.unannounced = r.written.length
  watermark : row r.sink.env .finalized =
    if r.marks = 0 then row env .finalized else some (beBytes (height start r.marks))
  view : r.written.length - r.point.unfolded ≠ 0 →
    r.sink.st.finalized = height start (r.written.length - r.point.unfolded)
  bus : r.announced ≠ 0 → Announces r.sink.bus (height start r.announced)
  stands : Stands Tag num start root r

section Inv

variable {Tag : Batch → Prop} {num : Hash → Nat} {par : Hash → Hash} {start : UInt64}
  {root : Hash} {env : Env} {r : Tracking} {t : Tracker} {s : Sink}

theorem TrackInv.init (hroot : num root = start.toNat) (he : Ends start env) (f : Option UInt64) :
    TrackInv Tag num start root env
      ⟨newTracker start root, newSink env (Mem.State.new f) openWriter, .idle, [], [], 0, 0⟩ where
  linked := trivial
  fits := by simp
  accepted := rfl
  rows := RowsAre.init he
  marks := rfl
  announced := rfl
  watermark := rfl
  view h := absurd rfl h
  bus h := absurd rfl h
  stands := by
    have hrest : Rest (newSink env (Mem.State.new f) openWriter) := ⟨rfl, rfl, fun _ => rfl⟩
    exact ⟨(hrest.new start root).published hroot.symm, ⟨_, carries_openWriter⟩, rfl, rfl⟩

/-- A point that is reached by a call that finalizes nothing. -/
def Point.Calm (p : Point) : Prop := p.unfolded = 0 ∧ p.unmarked = 0 ∧ p.unannounced = 0

theorem Point.after_calm {next : Point} (hn : next.Calm) (res : Except TrackErr Unit) :
    (Point.after next res).Calm := by
  rcases res with (_ | _ | _ | _ | _) | _
  all_goals first | exact hn | exact ⟨rfl, rfl, rfl⟩

/-- A part of a call that finalizes nothing. -/
theorem TrackInv.of_kept (h : TrackInv Tag num start root env r) (hi : r.point.Calm)
    {t : Tracker} {s : Sink} {p : Point} (hk : Kept r.sink s) (hp : p.Calm)
    (hst : Stands Tag num start root { r with tracker := t, sink := s, point := p }) :
    TrackInv Tag num start root env { r with tracker := t, sink := s, point := p } where
  linked := h.linked
  fits := h.fits
  accepted := h.accepted
  rows := by
    dsimp only
    rw [hk.env]
    exact h.rows
  marks := by
    have := h.marks
    rw [hi.2.1] at this
    rw [hp.2.1]
    exact this
  announced := by
    have := h.announced
    rw [hi.2.2] at this
    rw [hp.2.2]
    exact this
  watermark := by
    dsimp only
    rw [hk.env]
    exact h.watermark
  view := by
    have := h.view
    rw [hi.1] at this
    dsimp only
    rw [hp.1, hk.finalized]
    exact this
  bus hne := hk.announces _ (h.bus hne)
  stands := hst

/-- A part of a call of the tracker that finalizes nothing, whatever it comes to. -/
theorem TrackInv.tracked (h : TrackInv Tag num start root env r) (hi : r.point = .idle)
    {P : Tracker → Prop} {next : Point} (hn : next.Calm) {res : Except TrackErr Unit × Tracker × Sink}
    (hres : Tracked Tag num r.tracker r.sink P res)
    (hst : ∀ stack s, P { r.tracker with stack := stack } →
      Between Tag num start root { r with tracker := { r.tracker with stack := stack }, sink := s, point := next } →
      Stands Tag num start root
        { r with tracker := { r.tracker with stack := stack }, sink := s, point := next }) :
    TrackInv Tag num start root env
      { r with tracker := res.2.1, sink := res.2.2, point := Point.after next res.1 } := by
  have hcalm : r.point.Calm := by
    rw [hi]
    exact ⟨rfl, rfl, rfl⟩
  have hb := h.stands
  rw [Stands, hi] at hb
  cases hres with
  | @done stack s' hp hk hl hP =>
    exact h.of_kept hcalm hk hn (hst stack s' hP ⟨hp, hl, hb.height, hb.last⟩)
  | @refused e he =>
    have hidle : Point.after next (.error e) = .idle := by
      cases e with
      | sink e' => exact absurd rfl (he e')
      | _ => rfl
    refine h.of_kept hcalm (Kept.refl _) (Point.after_calm hn _) ?_
    rw [hidle]
    exact ⟨hb.published, hb.live, hb.height, hb.last⟩
  | failed hk => exact h.of_kept hcalm hk ⟨rfl, rfl, rfl⟩ trivial

theorem TrackInv.verified (h : TrackInv Tag num start root env r) (hi : r.point = .idle)
    {b : Batch} (hb : Tag b) :
    TrackInv Tag num start root env { r with tracker := r.tracker.verified b } := by
  have hs := h.stands
  rw [Stands, hi] at hs
  refine { h with stands := ?_ }
  rw [Stands]
  dsimp only
  rw [hi]
  have hfin : (r.tracker.verified b).finalizedHash = r.tracker.finalizedHash ∧
      (r.tracker.verified b).finalizedHeight = r.tracker.finalizedHeight := by
    rw [Tracker.verified]
    split <;> exact ⟨rfl, rfl⟩
  refine ⟨hs.published.verified hb, hs.live, ?_, hfin.1.trans hs.last⟩
  dsimp only
  rw [hfin.2]
  exact hs.height

/-- A finalization that is given up before it has written anything. -/
theorem TrackInv.giveUp (h : TrackInv Tag num start root env r) {block : UInt64} {hash : Hash}
    (hi : r.point = .accepting block hash) :
    TrackInv Tag num start root env { r with point := .idle } := by
  have hs := h.stands
  rw [Stands, hi] at hs
  obtain ⟨hb, -⟩ := hs
  refine h.of_kept ?_ (Kept.refl _) ⟨rfl, rfl, rfl⟩ ?_
  · rw [hi]
    exact ⟨rfl, rfl, rfl⟩
  · exact ⟨hb.published, hb.live, hb.height, hb.last⟩

theorem TrackInv.write (h : TrackInv Tag num start root env r) (hd : Determines Tag num par)
    {block : UInt64} {hash : Hash} {b : Batch} (hi : r.point = .accepting block hash)
    (hc : r.sink.finalizeCheck block hash = .ok b) (hfit : (b.encode []).length < 2 ^ 32) :
    TrackInv Tag num start root env
      { r with
        sink := r.sink.finalizeWrite b
        point := .written block hash
        accepted := r.accepted ++ [(block, hash)]
        written := r.written ++ [b] } := by
  have hs := h.stands
  rw [Stands, hi] at hs
  obtain ⟨hb, hhead⟩ := hs
  obtain ⟨-, hbh, hbb, hpar, hnum, -⟩ := hb.published.check hd hhead hc
  have hnext : b.block.toNat = start.toNat + r.written.length + 1 := by
    rw [hnum, hb.height]
  have hmarks := h.marks
  have hann := h.announced
  have hview := h.view
  rw [hi] at hmarks hann hview
  refine ⟨linked_concat h.linked (hpar.trans hb.last) hnext, ?_, ?_, h.rows.write hnext, ?_, ?_, ?_,
    ?_, h.bus, ?_⟩
  · intro b' hb'
    rcases List.mem_append.mp hb' with hm | hm
    · exact h.fits b' hm
    · rw [List.mem_singleton.mp hm]
      exact hfit
  · rw [List.map_append, h.accepted, List.map_singleton, hbb, hbh]
  · rw [List.length_append, ← hmarks]
    rfl
  · rw [List.length_append, ← hann]
    rfl
  · exact (row_writeBlock_other _ _ (by simp) (by simp) (by simp)).trans h.watermark
  · simpa [Point.unfolded, Sink.finalizeWrite] using hview
  · exact ⟨r.sink, b, ⟨hb.published, hb.live, hhead, hc, by simp⟩, rfl⟩

/-- The block being finalized is the newest one in the store. -/
theorem TrackInv.height_of_last (h : TrackInv Tag num start root env r) {b : Batch}
    (hlast : r.written.getLast? = some b) :
    0 < r.written.length ∧ b.block = height start r.written.length := by
  obtain ⟨pre, hpre⟩ := List.getLast?_eq_some_iff.mp hlast
  have hlen : r.written.length = pre.length + 1 := by simp [hpre]
  have hnum := linked_block h.linked pre.length b (by simp [hpre])
  refine ⟨by omega, ?_⟩
  rw [height, hlen, ← Nat.add_assoc, ← hnum, UInt64.ofNat_toNat]

/-- Heights do not wrap. -/
theorem TrackInv.newest_lt (h : TrackInv Tag num start root env r) :
    start.toNat + r.written.length < 2 ^ 64 := by
  cases hlast : r.written.getLast? with
  | none =>
    rw [List.getLast?_eq_none_iff.mp hlast]
    exact UInt64.toNat_lt start
  | some b =>
    have hnum := linked_block h.linked (r.written.length - 1) b (by
      rw [← List.getLast?_eq_getElem?]
      exact hlast)
    have hlt := UInt64.toNat_lt b.block
    omega

theorem TrackInv.fold (h : TrackInv Tag num start root env r) (hd : Determines Tag num par)
    {block : UInt64} {hash : Hash} (hi : r.point = .written block hash) :
    TrackInv Tag num start root env
      { r with
        sink := (r.sink.finalizeFold block hash).2
        point :=
          if (r.sink.finalizeFold block hash).1 = .ok () then .folded block hash
          else .halted true } := by
  have hs := h.stands
  rw [Stands, hi] at hs
  obtain ⟨s, b, hf, hsink⟩ := hs
  obtain ⟨hok, hfin⟩ := hf.published.fold hd hf.head hf.check
  obtain ⟨-, -, hbb, -, -, -⟩ := hf.published.check hd hf.head hf.check
  obtain ⟨-, hlast⟩ := h.height_of_last hf.last
  have henv : (r.sink.finalizeFold block hash).2.env = r.sink.env := by rw [finalizeFold_snd]
  have hbus : (r.sink.finalizeFold block hash).2.bus = r.sink.bus := by rw [finalizeFold_snd]
  have hmarks := h.marks
  have hann := h.announced
  rw [hi] at hmarks hann
  rw [← hsink] at hok hfin
  rw [if_pos hok]
  refine ⟨h.linked, h.fits, h.accepted, ?_, hmarks, hann, ?_, fun _ => ?_, ?_, ?_⟩
  · rw [henv]
    exact h.rows
  · rw [henv]
    exact h.watermark
  · exact hfin.trans (hbb.symm.trans hlast)
  · dsimp only
    rw [hbus]
    exact h.bus
  · exact ⟨s, b, ⟨hf.published, hf.live, hf.head, hf.check, hf.last⟩, by rw [← hsink]⟩

theorem TrackInv.mark (h : TrackInv Tag num start root env r) (hd : Determines Tag num par)
    {block : UInt64} {hash : Hash} (hi : r.point = .folded block hash) :
    TrackInv Tag num start root env
      { r with
        sink := r.sink.finalizeMark block
        point := .marked block hash
        marks := r.marks + 1 } := by
  have hs := h.stands
  rw [Stands, hi] at hs
  obtain ⟨s, b, hf, hsink⟩ := hs
  obtain ⟨-, -, hbb, -, -, -⟩ := hf.published.check hd hf.head hf.check
  obtain ⟨-, hlast⟩ := h.height_of_last hf.last
  have hmarks := h.marks
  have hann := h.announced
  have hview := h.view
  rw [hi] at hmarks hann hview
  have hmarks' : r.marks + 1 = r.written.length := hmarks
  refine ⟨h.linked, h.fits, h.accepted, h.rows.setFinalized block, hmarks, hann, ?_, hview, h.bus, ?_⟩
  · dsimp only
    rw [if_neg (by omega), hmarks', ← hlast, hbb]
    exact (row_put _ _ _ _).trans (if_pos rfl)
  · exact ⟨s, b, ⟨hf.published, hf.live, hf.head, hf.check, hf.last⟩, by rw [← hsink]⟩

theorem TrackInv.publish (h : TrackInv Tag num start root env r) (hd : Determines Tag num par)
    {block : UInt64} {hash : Hash} (hi : r.point = .marked block hash)
    (hok : (r.sink.finalizePublish none block hash).1 = .ok ()) :
    TrackInv Tag num start root env
      { r with
        tracker := r.tracker.finalized block hash
        sink := (r.sink.finalizePublish none block hash).2
        point := .idle
        announced := r.announced + 1 } := by
  have hs := h.stands
  rw [Stands, hi] at hs
  obtain ⟨s, b, hf, hsink⟩ := hs
  obtain ⟨-, hbh, hbb, -, -, hblock⟩ := hf.published.check hd hf.head hf.check
  obtain ⟨hfold, -⟩ := hf.published.fold hd hf.head hf.check
  obtain ⟨hpos, hlast⟩ := h.height_of_last hf.last
  obtain ⟨-, -, hpub⟩ := hf.published.finalize hd hf.head hblock
  rw [finalize_of_steps hf.check hfold, ← hsink] at hpub
  have hbus : r.sink.bus = s.bus := by
    rw [hsink, finalizeFold_snd]
    rfl
  obtain ⟨evs, hc⟩ := hf.live
  rw [← hbus] at hc
  obtain ⟨henv, hst, hcar, -, hfin⟩ := finalizePublish_ok hc hok
  have hmarks := h.marks
  have hann := h.announced
  have hview := h.view
  rw [hi] at hmarks hann hview
  have hann' : r.announced + 1 = r.written.length := hann
  refine ⟨h.linked, h.fits, h.accepted, ?_, hmarks, hann, ?_, ?_, fun _ => ?_, ?_⟩
  · rw [henv]
    exact h.rows
  · rw [henv]
    exact h.watermark
  · dsimp only
    rw [hst]
    exact hview
  · have hheight : block = height start (r.announced + 1) := by
      rw [hann', ← hlast, hbb]
    have hb := announces_of_carries hcar
    rw [hfin] at hb
    exact hheight ▸ hb
  · refine ⟨hpub, ⟨_, hcar⟩, ?_, ?_⟩
    · rw [Tracker.finalized, ← hbb, hlast, toNat_height h.newest_lt]
    · rw [hf.last, Tracker.finalized]
      exact hbh.symm

theorem TrackInv.publishFails (h : TrackInv Tag num start root env r)
    {block : UInt64} {hash : Hash} (hi : r.point = .marked block hash)
    (herr : (r.sink.finalizePublish none block hash).1 ≠ .ok ()) :
    TrackInv Tag num start root env
      { r with
        sink := (r.sink.finalizePublish none block hash).2
        point := .halted true } := by
  have hs : (r.sink.finalizePublish none block hash).2 =
      { r.sink with
        bus := (r.sink.bus.publishFinalize none block hash).2
        pending := fun h => (r.sink.pending h).filter (fun p => ¬ p.block ≤ block) } :=
    published_snd _ _
  have hbus := publishFinalize_env_of_ne_ok (published_ne_ok herr)
  have hmarks := h.marks
  have hann := h.announced
  have hview := h.view
  rw [hi] at hmarks hann hview
  rw [hs]
  refine ⟨h.linked, h.fits, h.accepted, h.rows, hmarks, hann, h.watermark, hview, fun hne => ?_, trivial⟩
  dsimp only
  rw [Announces, hbus]
  exact h.bus hne

theorem TrackInv.step (h : TrackInv Tag num start root env r) (hd : Determines Tag num par)
    {r' : Tracking} (hs : TrackStep Tag r r') : TrackInv Tag num start root env r' := by
  have hcalm : ∀ block hash, Point.Calm (.accepting block hash) := fun _ _ => ⟨rfl, rfl, rfl⟩
  cases hs with
  | verified hi hb => exact h.verified hi hb
  | head hash hi =>
    have hb := h.stands
    rw [Stands, hi] at hb
    have hidle : Point.Calm .idle := ⟨rfl, rfl, rfl⟩
    exact h.tracked hi hidle (hb.published.tracked_head hd hb.live hash)
      (fun _ _ _ hb => hb)
  | accept block hash hi =>
    have hb := h.stands
    rw [Stands, hi] at hb
    exact h.tracked hi (hcalm block hash) (hb.published.tracked_accept hd hb.live block hash)
      (fun _ _ hhead hb => ⟨hb, hhead⟩)
  | refuse hi hc => exact h.giveUp hi
  | abort hi hc => exact h.giveUp hi
  | write hi hc hfit => exact h.write hd hi hc hfit
  | fold hi => exact h.fold hd hi
  | mark hi => exact h.mark hd hi
  | publish hi hok => exact h.publish hd hi hok
  | publishFails hi herr => exact h.publishFails hi herr

/-- The invariant holds throughout every run. -/
theorem TrackRun.inv (hd : Determines Tag num par) (hroot : num root = start.toNat)
    (he : Ends start env) (hr : TrackRun Tag start root env r) :
    TrackInv Tag num start root env r := by
  induction hr with
  | init f => exact TrackInv.init hroot he f
  | step hr hs ih => exact ih.step hd hs

end Inv

/-! ## Whole calls -/

/-- `Tracker.Accepted` is its steps, one after the other. -/
theorem accepted_reaches {Tag : Batch → Prop} {r : Tracking} (hi : r.point = .idle) (block : UInt64)
    (hash : Hash)
    (hfit : ∀ b, (r.tracker.publishAccepted r.sink block hash).2.2.finalizeCheck block hash = .ok b →
      (b.encode []).length < 2 ^ 32) :
    ∃ r', Relation.ReflTransGen (TrackStep Tag) r r' ∧
      (r'.tracker, r'.sink) = (r.tracker.accepted r.sink block hash).2 := by
  have hfirst : TrackStep Tag r _ := .accept block hash hi
  rw [Tracker.accepted]
  rcases hp : r.tracker.publishAccepted r.sink block hash with ⟨res, t, s⟩
  rw [hp] at hfirst hfit
  cases res with
  | error e => exact ⟨_, .single hfirst, rfl⟩
  | ok u =>
    dsimp only at hfit ⊢
    rw [Sink.finalize]
    cases hc : s.finalizeCheck block hash with
    | error e => exact ⟨_, .single hfirst, rfl⟩
    | ok b =>
      have hfit' := hfit b hc
      have hwrite := Relation.ReflTransGen.tail (.single hfirst) (TrackStep.write rfl hc hfit')
      have hfold := hwrite.tail (TrackStep.fold rfl)
      dsimp only at hfold ⊢
      rcases hf : (s.finalizeWrite b).finalizeFold block hash with ⟨res, s1⟩
      rw [hf] at hfold
      cases res with
      | error e => exact ⟨_, hfold, rfl⟩
      | ok u =>
        have hmark := hfold.tail (TrackStep.mark rfl)
        dsimp only at hmark ⊢
        rcases hb : (s1.finalizeMark block).finalizePublish none block hash with ⟨res, s2⟩
        cases res with
        | error e =>
          refine ⟨_, hmark.tail (TrackStep.publishFails rfl ?_), ?_⟩
          · dsimp only
            rw [hb]
            simp
          · dsimp only
            rw [hb]
        | ok u =>
          refine ⟨_, hmark.tail (TrackStep.publish rfl ?_), ?_⟩
          · dsimp only
            rw [hb]
          · dsimp only
            rw [hb]

/-! ## D7 -/

/-- The order of D7, in a state of a run that started on `env₀`, which ends at `start`. -/
structure D7 (start : UInt64) (root : Hash) (env₀ : Env) (r : Tracking) : Prop where
  /-- above the start the store holds the rows of the accepted blocks, and no others -/
  rows : RowsAre start env₀ r.written r.sink.env
  /-- without a gap -/
  linked : Linked root start.toNat r.written
  accepted : r.written.map (fun b => (b.block, b.hash)) = r.accepted
  /-- the watermark, the tip view and the newest block of the store -/
  window : r.marks ≠ 0 → ∃ F b, finalized r.sink.env = .ok (some F) ∧
    F ≤ r.sink.st.finalized ∧ r.sink.st.finalized.toNat ≤ start.toNat + r.written.length ∧
    start.toNat + r.written.length ≤ F.toNat + 1 ∧
    getDiff r.sink.env F = .ok b ∧ b.block = F ∧ (F, b.hash) ∈ r.accepted
  /-- before the first move of the watermark -/
  fresh : r.marks = 0 → row r.sink.env .finalized = row env₀ .finalized ∧ r.written.length ≤ 1
  /-- the bus is at the watermark, or one finalization behind -/
  bus : r.announced ≠ 0 → ∃ F fin, finalized r.sink.env = .ok (some F) ∧
    Announces r.sink.bus fin ∧
    (fin = F ∨ fin.toNat + 1 = F.toNat ∧
      (r.point = .halted true ∨ ∃ block hash, r.point = .marked block hash))

section D7

variable {Tag : Batch → Prop} {num : Hash → Nat} {par : Hash → Hash} {start : UInt64}
  {root : Hash} {env : Env} {r : Tracking}

/-- The watermark of a state in which it has moved. -/
theorem TrackInv.finalized_eq (h : TrackInv Tag num start root env r) (hm : r.marks ≠ 0) :
    finalized r.sink.env = .ok (some (height start r.marks)) := by
  have hw := h.watermark
  rw [if_neg hm] at hw
  exact getMetaU64_of_row hw

/-- The block at the watermark. -/
theorem TrackInv.getDiff_eq (h : TrackInv Tag num start root env r) (hm : r.marks ≠ 0) :
    ∃ b ∈ r.written, getDiff r.sink.env (height start r.marks) = .ok b ∧
      b.block = height start r.marks := by
  have hle : r.marks ≤ r.written.length := by
    have := h.marks
    omega
  have hlt := h.newest_lt
  have hF : (height start r.marks).toNat = start.toNat + r.marks := toNat_height (by omega)
  obtain ⟨b, hb⟩ : ∃ b, r.written[r.marks - 1]? = some b :=
    ⟨_, List.getElem?_eq_getElem (by omega)⟩
  have hnum := linked_block h.linked _ b hb
  have hmem := List.mem_of_getElem? hb
  have habove : start < height start r.marks := by
    rw [UInt64.lt_iff_toNat_lt, hF]
    omega
  have hrow := h.rows.diff (height start r.marks)
  rw [if_pos habove, blockAt, if_pos habove, hF,
    show start.toNat + r.marks - start.toNat - 1 = r.marks - 1 by omega, hb] at hrow
  refine ⟨b, hmem, ?_, UInt64.toNat_inj.mp (by omega)⟩
  have hget : r.sink.env.get (appendDiffKey [] (height start r.marks)) = some (b.encode []) := hrow
  rw [getDiff, hget]
  dsimp only
  rw [decode_encode_of_encodable (encodable_of_length (h.fits b hmem))]

theorem TrackInv.d7 (h : TrackInv Tag num start root env r) : D7 start root env r where
  rows := h.rows
  linked := h.linked
  accepted := h.accepted
  window hm := by
    obtain ⟨b, hb, hdiff, hblock⟩ := h.getDiff_eq hm
    have hlt := h.newest_lt
    have hmarks := h.marks
    have hpoint := r.point.bounds
    have hF : (height start r.marks).toNat = start.toNat + r.marks := toNat_height (by omega)
    have hst := h.view (by omega)
    have hview : r.sink.st.finalized.toNat =
        start.toNat + (r.written.length - r.point.unfolded) := by
      rw [hst]
      exact toNat_height (by omega)
    refine ⟨height start r.marks, b, h.finalized_eq hm, ?_, by omega, by omega, hdiff, hblock, ?_⟩
    · rw [UInt64.le_iff_toNat_le]
      omega
    · rw [← h.accepted, ← hblock]
      exact List.mem_map_of_mem hb
  fresh hm := by
    have hw := h.watermark
    rw [if_pos hm] at hw
    have hmarks := h.marks
    have hpoint := r.point.bounds
    exact ⟨hw, by omega⟩
  bus ha := by
    have hlt := h.newest_lt
    have hmarks := h.marks
    have hann := h.announced
    obtain ⟨-, hpoint⟩ := r.point.bounds
    have hF : (height start r.marks).toNat = start.toNat + r.marks := toNat_height (by omega)
    have hB : (height start r.announced).toNat = start.toNat + r.announced :=
      toNat_height (by omega)
    refine ⟨_, _, h.finalized_eq (by omega), h.bus ha, ?_⟩
    rcases Nat.eq_or_lt_of_le (show r.announced ≤ r.marks by omega) with heq | hlt'
    · exact Or.inl (by rw [heq])
    · refine Or.inr ⟨by omega, ?_⟩
      exact Point.lag (by omega) (by omega)

end D7

/-- In every state of every run of the tracker over its sink, also inside a finalization,
the order of D7 holds. -/
theorem finalization_order {Tag : Batch → Prop} {num : Hash → Nat} {par : Hash → Hash}
    {start : UInt64} {root : Hash} {env : Env} {r : Tracking} (hd : Determines Tag num par)
    (hroot : num root = start.toNat) (he : Ends start env) (hr : TrackRun Tag start root env r) :
    D7 start root env r :=
  (hr.inv hd hroot he).d7

/-! ### The acceptance of block 6 -/

namespace Sample

open Store.Sample

/-- No block of the finished baseline has rows. -/
theorem finished_ends : Ends 5 finished.env := by
  have hrow : ∀ r : Row, (∃ h, r = .diff h) ∨ (∃ t h, r = .history t h) →
      row finished.env r = none := by
    intro r hr
    have hne : ∀ r' : Row, (∀ h, r' ≠ .diff h) → (∀ t h, r' ≠ .history t h) → r ≠ r' := by
      rintro r' hd hh rfl
      rcases hr with ⟨h, rfl⟩ | ⟨t, h, rfl⟩
      · exact hd h rfl
      · exact hh t h rfl
    calc row finished.env r
      _ = row (loaded.del metaBaselineProgress) r :=
        row_put_of_ne _ _ (hne .baselineComplete (by simp) (by simp))
      _ = row loaded r :=
        (row_del loaded .baselineProgress r).trans (if_neg (hne .baselineProgress (by simp) (by simp)))
      _ = row (putBaseAccount (putMeta OrdMap.empty metaGenesis (beBytes 5)) (digest addr.1) (acct 10)) r :=
        row_put_of_ne _ _ (hne (.baseSlot _ _) (by simp) (by simp))
      _ = row (putMeta OrdMap.empty metaGenesis (beBytes 5)) r :=
        row_put_of_ne _ _ (hne (.baseAccount _) (by simp) (by simp))
      _ = row OrdMap.empty r := row_put_of_ne _ _ (hne .genesis (by simp) (by simp))
      _ = none := row_empty r
  exact fun h _ => ⟨hrow _ (Or.inl ⟨h, rfl⟩), fun t => hrow _ (Or.inr ⟨t, h, rfl⟩)⟩

/-- Block 6 was verified. -/
def known : Tracking :=
  ⟨(newTracker 5 block6.parent).verified block6,
    newSink finished.env (Mem.State.new none) openWriter, .idle, [], [], 0, 0⟩

theorem known_run : TrackRun (· = block6) 5 block6.parent finished.env known :=
  .step (.init none) (.verified rfl rfl)

/-- Its acceptance, which nothing preferred before, has reset the stack to it. -/
def resetTo : Tracking :=
  { known with
    tracker := (known.tracker.publishAccepted known.sink 6 block6.hash).2.1
    sink := (known.tracker.publishAccepted known.sink 6 block6.hash).2.2
    point := .accepting 6 block6.hash }

theorem resetTo_run : TrackRun (· = block6) 5 block6.parent finished.env resetTo := by
  have h := TrackRun.step known_run (.accept 6 block6.hash rfl)
  have hok : (known.tracker.publishAccepted known.sink 6 block6.hash).1 = .ok () := by
    decide +kernel
  rw [hok] at h
  exact h

/-- The finalization of block 6, after the watermark has moved. -/
def midway : Tracking :=
  { resetTo with
    sink := ((resetTo.sink.finalizeWrite block6).finalizeFold 6 block6.hash).2.finalizeMark 6
    point := .marked 6 block6.hash
    accepted := resetTo.accepted ++ [(6, block6.hash)]
    written := resetTo.written ++ [block6]
    marks := resetTo.marks + 1 }

theorem midway_run : TrackRun (· = block6) 5 block6.parent finished.env midway := by
  have hw := resetTo_run.step (.write (b := block6) rfl (by decide +kernel) (by decide +kernel))
  have hf := hw.step (.fold rfl)
  have hok : ((resetTo.sink.finalizeWrite block6).finalizeFold 6 block6.hash).1 = .ok () := by
    decide +kernel
  dsimp only at hf
  rw [if_pos hok] at hf
  have hm := hf.step (.mark rfl)
  dsimp only at hm
  rw [midway]
  exact hm

end Sample

/-- The theorem at work inside the finalization of block 6: the watermark is at 6, and the
bus has announced nothing yet. -/
theorem finalization_order_midway :
    Sample.midway.marks = 1 ∧ Sample.midway.announced = 0 ∧
      D7 5 Store.Sample.block6.parent Store.Sample.finished.env Sample.midway := by
  have hd : Determines (· = Store.Sample.block6)
      (fun h => if h = Store.Sample.block6.hash then 6 else 5)
      (fun _ => Store.Sample.block6.parent) := by
    refine ⟨?_, ?_, ?_⟩
    all_goals
      rintro b rfl
      decide
  exact ⟨rfl, rfl, finalization_order hd (by decide) Sample.finished_ends Sample.midway_run⟩

end Flatstate.Node
