import Flatstate.Foundation.Table
import Flatstate.Node.Sink

set_option autoImplicit false

/-!
# Node: from raw block events to sink calls (`node/tracker.go`)

The tracker keeps the verified batches above the finalized block by hash and derives the
published stack by walking parent hashes from the preferred head.  It compares stacks by
hash only: a batch that is verified again under its hash takes the old one's place in
the table and, with the next head, in the stack, while the sink keeps what it was given.
-/

namespace Flatstate.Node

open Foundation Schema Capture Store Tipbus

/-! ## The tracker -/

/-- `Tracker`. -/
structure Tracker where
  /-- verified, above finalized -/
  table : Table Hash Batch
  /-- published preferred chain, oldest first -/
  stack : List Batch
  finalizedHeight : UInt64
  finalizedHash : Hash

/-- `NewTracker`. -/
def newTracker (finalizedHeight : UInt64) (finalizedHash : Hash) : Tracker :=
  ⟨Table.empty, [], finalizedHeight, finalizedHash⟩

/-- What the tracker's methods fail with. -/
inductive TrackErr where
  /-- "node: head chain references unknown block %x" -/
  | unknownHead (hash : Hash)
  /-- the walk from the head does not end -/
  | endless
  /-- "node: accepted unknown block %d %x" -/
  | unknownAccepted (block : UInt64) (hash : Hash)
  /-- "node: accepted block %d does not extend finalized %d" -/
  | notExtending (block finalized : UInt64)
  | sink (e : NodeErr)
  deriving DecidableEq

/-- `Tracker.Verified`. -/
def Tracker.verified (t : Tracker) (b : Batch) : Tracker :=
  if b.block ≤ t.finalizedHeight then t else { t with table := t.table.set b.hash b }

/-- The loop of `chainTo`, newest first.  A walk that visits no hash twice ends within as
many steps as the table has entries. -/
def Tracker.chainLoop (t : Tracker) : Nat → Hash → Except TrackErr (List Batch)
  | n, hash =>
    if hash = t.finalizedHash then .ok []
    else
      match t.table.get hash with
      | none => .error (.unknownHead hash)
      | some b =>
        match n with
        | 0 => .error .endless
        | n + 1 =>
          match t.chainLoop n b.parent with
          | .error e => .error e
          | .ok rest => .ok (b :: rest)

/-- `Tracker.chainTo`. -/
def Tracker.chainTo (t : Tracker) (hash : Hash) : Except TrackErr (List Batch) :=
  match t.chainLoop t.table.size hash with
  | .error e => .error e
  | .ok rev => .ok rev.reverse

/-- `sameChain`: by hash. -/
def sameChain (a b : List Batch) : Bool := a.map Batch.hash = b.map Batch.hash

/-- The outcome of a sink call. -/
def sinkCall (t : Tracker) : Except NodeErr Unit × Sink → Except TrackErr Unit × Tracker × Sink
  | (.ok (), s) => (.ok (), t, s)
  | (.error e, s) => (.error (.sink e), t, s)

/-- `Tracker.Head`. -/
def Tracker.head (t : Tracker) (s : Sink) (hash : Hash) : Except TrackErr Unit × Tracker × Sink :=
  match t.chainTo hash with
  | .error e => (.error e, t, s)
  | .ok chain =>
    if sameChain chain t.stack then (.ok (), t, s)
    else if chain.length = t.stack.length + 1 ∧ sameChain (chain.take t.stack.length) t.stack then
      match chain.getLast? with
      | none => (.ok (), t, s)
      | some b => sinkCall { t with stack := chain } (s.block none b)
    else sinkCall { t with stack := chain } (s.preferenceReset none chain)

/-- The first part of `Tracker.Accepted`: the accepted block is the oldest published one,
or the stack is reset to it. -/
def Tracker.publishAccepted (t : Tracker) (s : Sink) (block : UInt64) (hash : Hash) :
    Except TrackErr Unit × Tracker × Sink :=
  if t.stack.head?.map Batch.hash = some hash then (.ok (), t, s)
  else
    match t.table.get hash with
    | none => (.error (.unknownAccepted block hash), t, s)
    | some b =>
      if b.parent ≠ t.finalizedHash then (.error (.notExtending block t.finalizedHeight), t, s)
      else sinkCall { t with stack := [b] } (s.preferenceReset none [b])

/-- The tracker after a finalization. -/
def Tracker.finalized (t : Tracker) (block : UInt64) (hash : Hash) : Tracker where
  table := t.table.keep (fun _ b => ¬ b.block ≤ block)
  stack := t.stack.tail
  finalizedHeight := block
  finalizedHash := hash

/-- `Tracker.Accepted`. -/
def Tracker.accepted (t : Tracker) (s : Sink) (block : UInt64) (hash : Hash) :
    Except TrackErr Unit × Tracker × Sink :=
  match t.publishAccepted s block hash with
  | (.error e, t, s) => (.error e, t, s)
  | (.ok (), t, s) =>
    match s.finalize none block hash with
    | (.error e, s) => (.error (.sink e), t, s)
    | (.ok (), s) => (.ok (), t.finalized block hash, s)

/-! ## Sink calls, whether or not the bus commits -/

/-- The result of a sink call that does nothing wrong. -/
def Clean (r : Except NodeErr Unit) : Prop := r = .ok () ∨ r = .error (.bus .txn)

theorem published_cases (s : Sink) {r : Except BusErr Unit × Bus}
    (hr : r.1 = .ok () ∨ r.1 = .error .txn) :
    Clean (s.published r).1 ∧ (s.published r).2 = { s with bus := r.2 } := by
  obtain ⟨res, bus⟩ := r
  rcases hr with h | h
  · dsimp only at h
    subst h
    exact ⟨Or.inl rfl, rfl⟩
  · dsimp only at h
    subst h
    exact ⟨Or.inr rfl, rfl⟩

theorem block_cases (s : Sink) (b : Batch) :
    Clean (s.block none b).1 ∧
      ∃ bus, bus.layers = s.bus.layers ++ [b] ∧
        (s.block none b).2 =
          ⟨s.env, s.st.applyBlock b, bus, Function.update s.pending b.hash (some b)⟩ := by
  obtain ⟨hr, hl⟩ := publish_cases none { s.bus with layers := s.bus.layers ++ [b] }
    (Event.block b).encode
  dsimp only [Sink.block]
  have h := published_cases
    { s with pending := Function.update s.pending b.hash (some b), st := s.st.applyBlock b }
    (r := s.bus.publishBlock none b) hr
  exact ⟨h.1, _, hl, h.2⟩

/-- What `PreferenceReset` leaves as published. -/
def resetPending (preferred : List Batch) : Hash → Option Batch :=
  preferred.foldl (fun p b => Function.update p b.hash (some b)) (fun _ => none)

theorem preferenceReset_cases (s : Sink) (preferred : List Batch) :
    Clean (s.preferenceReset none preferred).1 ∧
      ∃ bus, bus.layers = preferred ∧
        (s.preferenceReset none preferred).2 =
          ⟨s.env, s.st.preferenceReset preferred, bus, resetPending preferred⟩ := by
  obtain ⟨hr, hl⟩ := publish_cases none { s.bus with layers := preferred } (Event.reset preferred).encode
  dsimp only [Sink.preferenceReset]
  have h := published_cases
    { s with pending := resetPending preferred, st := s.st.preferenceReset preferred }
    (r := s.bus.publishReset none preferred) hr
  exact ⟨h.1, _, hl, h.2⟩

/-- `Sink.Finalize` of the oldest layer, with the batch that was published under its
hash. -/
theorem finalize_cases {s : Sink} {b l : Batch} {rest : List Batch}
    (hst : s.st.layers = (l :: rest).map Mem.newLayer) (hbus : s.bus.layers = l :: rest)
    (hp : s.pending l.hash = some b) (hb : b.block = l.block) :
    Clean (s.finalize none l.block l.hash).1 ∧
      ∃ bus, bus.layers = rest ∧
        (s.finalize none l.block l.hash).2 =
          ⟨setFinalized (writeBlock s.env b) l.block, (s.st.finalize l.block l.hash).2, bus,
            fun h => (s.pending h).filter (fun p => ¬ p.block ≤ l.block)⟩ := by
  obtain ⟨hok, -, -⟩ := Mem.finalize_oldest hst
  have hcheck : s.finalizeCheck l.block l.hash = .ok b := by
    rw [Sink.finalizeCheck, hp]
    simp [hb]
  have hfold : (s.finalizeWrite b).finalizeFold l.block l.hash =
      (.ok (), { s.finalizeWrite b with st := (s.st.finalize l.block l.hash).2 }) := by
    rw [Sink.finalizeFold]
    have hs : (s.finalizeWrite b).st = s.st := rfl
    rw [hs]
    cases hf : s.st.finalize l.block l.hash with
    | mk r st =>
      rw [hf] at hok
      dsimp only at hok
      subst hok
      rfl
  have hpub : s.bus.publishFinalize none l.block l.hash =
      ({ s.bus with layers := rest, finalized := l.block }).publish none
        (Event.finalize l.block l.hash).encode := by
    simp [Bus.publishFinalize, hbus]
  obtain ⟨hr, hl⟩ := publish_cases none { s.bus with layers := rest, finalized := l.block }
    (Event.finalize l.block l.hash).encode
  rw [← hpub] at hr hl
  rw [Sink.finalize, hcheck]
  simp only [hfold]
  have h := published_cases
    ⟨setFinalized (writeBlock s.env b) l.block, (s.st.finalize l.block l.hash).2, s.bus,
      fun h => (s.pending h).filter (fun p => ¬ p.block ≤ l.block)⟩
    (r := s.bus.publishFinalize none l.block l.hash) hr
  exact ⟨h.1, _, hl, h.2⟩

/-! ## The walk -/

/-- A chain of batches on top of the block `h` at height `n`. -/
def Linked : Hash → Nat → List Batch → Prop
  | _, _, [] => True
  | h, n, b :: bs => b.parent = h ∧ b.block.toNat = n + 1 ∧ Linked b.hash b.block.toNat bs

theorem linked_concat {h : Hash} {n : Nat} {bs : List Batch} {b : Batch} (hl : Linked h n bs)
    (hp : b.parent = (bs.getLast?.map Batch.hash).getD h)
    (hb : b.block.toNat = n + bs.length + 1) : Linked h n (bs ++ [b]) := by
  induction bs generalizing h n with
  | nil => exact ⟨hp, hb, trivial⟩
  | cons b0 bs ih =>
    obtain ⟨h1, h2, h3⟩ := hl
    refine ⟨h1, h2, ih h3 ?_ ?_⟩
    · rw [hp]
      cases bs with
      | nil => rfl
      | cons b1 bs => simp [List.getLast?_cons]
    · rw [hb, h2, List.length_cons]
      omega

theorem linked_of_concat {h : Hash} {n : Nat} {bs : List Batch} {b : Batch}
    (hl : Linked h n (bs ++ [b])) :
    Linked h n bs ∧ b.parent = (bs.getLast?.map Batch.hash).getD h ∧
      b.block.toNat = n + bs.length + 1 := by
  induction bs generalizing h n with
  | nil => exact ⟨trivial, hl.1, hl.2.1⟩
  | cons b0 bs ih =>
    obtain ⟨h1, h2, h3⟩ := hl
    obtain ⟨hrest, hpar, hnum⟩ := ih h3
    refine ⟨⟨h1, h2, hrest⟩, ?_, ?_⟩
    · rw [hpar]
      cases bs with
      | nil => rfl
      | cons b1 bs => simp [List.getLast?_cons]
    · rw [hnum, h2, List.length_cons]
      omega

theorem linked_append {h : Hash} {n : Nat} {bs cs : List Batch} (hl : Linked h n (bs ++ cs)) :
    Linked h n bs ∧ Linked ((bs.getLast?.map Batch.hash).getD h) (n + bs.length) cs := by
  induction bs generalizing h n with
  | nil => exact ⟨trivial, hl⟩
  | cons b bs ih =>
    obtain ⟨h1, h2, h3⟩ := hl
    obtain ⟨hbs, hcs⟩ := ih h3
    have hn : n + (b :: bs).length = b.block.toNat + bs.length := by
      rw [h2, List.length_cons]
      omega
    have hlast : ((b :: bs).getLast?.map Batch.hash).getD h = (bs.getLast?.map Batch.hash).getD b.hash := by
      cases bs with
      | nil => rfl
      | cons b1 bs => simp [List.getLast?_cons]
    rw [hn, hlast]
    exact ⟨⟨h1, h2, hbs⟩, hcs⟩

theorem linked_block {h : Hash} {n : Nat} {bs : List Batch} (hl : Linked h n bs) :
    ∀ i b, bs[i]? = some b → b.block.toNat = n + i + 1 := by
  induction bs generalizing h n with
  | nil => simp
  | cons b0 bs ih =>
    obtain ⟨-, h2, h3⟩ := hl
    intro i b hb
    cases i with
    | zero =>
      obtain rfl : b0 = b := by simpa using hb
      exact h2
    | succ i =>
      have := ih h3 i b (by simpa using hb)
      omega

theorem Linked.lt {h : Hash} {n : Nat} {bs : List Batch} (hl : Linked h n bs) {b : Batch}
    (hb : b ∈ bs) : n < b.block.toNat := by
  obtain ⟨i, hi⟩ := List.mem_iff_getElem?.mp hb
  have := linked_block hl i b hi
  omega

/-- The loop follows a path to its end. -/
theorem chainLoop_path {t : Tracker} {hash : Hash} {es : List (Hash × Batch)}
    (hp : t.table.Path Batch.parent t.finalizedHash hash es) {n : Nat} (hn : es.length ≤ n) :
    t.chainLoop n hash = .ok (es.map Prod.snd) := by
  induction hp generalizing n with
  | root => simp [Tracker.chainLoop]
  | step hk hv hp ih =>
    cases n with
    | zero => simp at hn
    | succ n =>
      have hrest := ih (Nat.le_of_succ_le_succ hn)
      rw [Tracker.chainLoop, if_neg hk, hv]
      simp only [hrest]
      rfl

/-- `chainTo` returns the path, oldest first, if numbers fall along it. -/
theorem chainTo_path {t : Tracker} {hash : Hash} {es : List (Hash × Batch)}
    (hp : t.table.Path Batch.parent t.finalizedHash hash es)
    (hdec : ∀ h b b', t.table.get h = some b → t.table.get b.parent = some b' →
      b'.block.toNat < b.block.toNat) :
    t.chainTo hash = .ok (es.map Prod.snd).reverse := by
  have hlen := hp.length_le_size (fun b => b.block.toNat) hdec
  rw [Tracker.chainTo, chainLoop_path hp hlen]

/-- What the loop can come to: a path to the finalized block, a hash that is not in the
table, or more steps than it was given. -/
theorem chainLoop_cases {t : Tracker} {num : Hash → Nat}
    (hnum : ∀ h b, t.table.get h = some b → num b.parent < num h) (n : Nat) (hash : Hash) :
    (∃ es, t.table.Path Batch.parent t.finalizedHash hash es ∧
      t.chainLoop n hash = .ok (es.map Prod.snd)) ∨
    (∃ u, t.chainLoop n hash = .error (.unknownHead u)) ∨
    (t.chainLoop n hash = .error .endless ∧ ∃ u es, num u < num hash ∧
      t.table.Path Batch.parent u hash es ∧ es.length = n + 1) := by
  induction n generalizing hash with
  | zero =>
    rw [Tracker.chainLoop]
    by_cases hroot : hash = t.finalizedHash
    · rw [if_pos hroot, hroot]
      exact Or.inl ⟨[], .root, rfl⟩
    · rw [if_neg hroot]
      cases hb : t.table.get hash with
      | none => exact Or.inr (Or.inl ⟨hash, rfl⟩)
      | some b =>
        have hlt := hnum hash b hb
        have hne : hash ≠ b.parent := fun he => by
          rw [← he] at hlt
          exact Nat.lt_irrefl _ hlt
        exact Or.inr (Or.inr ⟨rfl, b.parent, [(hash, b)], hlt, .step hne hb .root, rfl⟩)
  | succ n ih =>
    rw [Tracker.chainLoop]
    by_cases hroot : hash = t.finalizedHash
    · rw [if_pos hroot, hroot]
      exact Or.inl ⟨[], .root, rfl⟩
    · rw [if_neg hroot]
      cases hb : t.table.get hash with
      | none => exact Or.inr (Or.inl ⟨hash, rfl⟩)
      | some b =>
        have hlt := hnum hash b hb
        dsimp only
        rcases ih b.parent with ⟨es, hp, hok⟩ | ⟨u, hu⟩ | ⟨hend, u, es, hu, hp, hlen⟩
        · rw [hok]
          exact Or.inl ⟨(hash, b) :: es, .step hroot hb hp, rfl⟩
        · rw [hu]
          exact Or.inr (Or.inl ⟨u, rfl⟩)
        · rw [hend]
          have hne : hash ≠ u := fun he => by
            rw [he] at hlt
            exact Nat.lt_asymm hlt hu
          refine Or.inr (Or.inr ⟨rfl, u, (hash, b) :: es, Nat.lt_trans hu hlt, .step hne hb hp, ?_⟩)
          rw [List.length_cons, hlen]

/-- `chainTo` ends: at the finalized block, or at a block it does not know. -/
theorem chainTo_cases {t : Tracker} {num : Hash → Nat}
    (hnum : ∀ h b, t.table.get h = some b → b.block.toNat = num h ∧ num b.parent < num h)
    (hash : Hash) :
    (∃ es, t.table.Path Batch.parent t.finalizedHash hash es ∧
      t.chainTo hash = .ok (es.map Prod.snd).reverse) ∨
    ∃ u, t.chainTo hash = .error (.unknownHead u) := by
  rw [Tracker.chainTo]
  rcases chainLoop_cases (fun h b hb => (hnum h b hb).2) t.table.size hash with
    ⟨es, hp, hok⟩ | ⟨u, hu⟩ | ⟨-, u, es, -, hp, hlen⟩
  · rw [hok]
    exact Or.inl ⟨es, hp, rfl⟩
  · rw [hu]
    exact Or.inr ⟨u, rfl⟩
  · -- numbers fall along a path, so it visits no entry of the table twice
    have hle := hp.length_le_size (fun b => b.block.toNat) (fun h b b' hb hb' => by
      rw [(hnum h b hb).1, (hnum _ b' hb').1]
      exact (hnum h b hb).2)
    omega

/-! ## What the calls come down to -/

theorem sinkCall_cases (t : Tracker) {r : Except NodeErr Unit × Sink} (hr : Clean r.1) :
    (r.1 = .ok () ∧ sinkCall t r = (.ok (), t, r.2)) ∨
      sinkCall t r = (.error (.sink (.bus .txn)), t, r.2) := by
  obtain ⟨res, s⟩ := r
  rcases hr with h | h
  · dsimp only at h
    subst h
    exact Or.inl ⟨rfl, rfl⟩
  · dsimp only at h
    subst h
    exact Or.inr rfl

theorem sameChain_iff {a b : List Batch} :
    sameChain a b = true ↔ a.map Batch.hash = b.map Batch.hash := by
  simp [sameChain]

/-- A head whose chain is known: nothing new, one more block, or another stack; or the
bus could not commit. -/
theorem head_cases {t : Tracker} (s : Sink) {hash : Hash} {chain : List Batch}
    (hc : t.chainTo hash = .ok chain) :
    t.head s hash = (.ok (), t, s) ∨
    (∃ c b, chain = c ++ [b] ∧ c.map Batch.hash = t.stack.map Batch.hash ∧
      (s.block none b).1 = .ok () ∧
      t.head s hash = (.ok (), { t with stack := chain }, (s.block none b).2)) ∨
    ((s.preferenceReset none chain).1 = .ok () ∧
      t.head s hash = (.ok (), { t with stack := chain }, (s.preferenceReset none chain).2)) ∨
    ∃ t' s', t.head s hash = (.error (.sink (.bus .txn)), t', s') := by
  rw [Tracker.head, hc]
  dsimp only
  split
  · exact Or.inl rfl
  · split
    · rename_i hext
      obtain ⟨hlen, hsame⟩ := hext
      cases hlast : chain.getLast? with
      | none =>
        rw [List.getLast?_eq_none_iff] at hlast
        simp [hlast] at hlen
      | some b =>
        have hchain := List.getLast?_eq_some_iff.mp hlast
        obtain ⟨c, rfl⟩ := hchain
        have hclen : c.length = t.stack.length := by simpa using hlen
        rw [← hclen, List.take_left' rfl, sameChain_iff] at hsame
        rcases sinkCall_cases { t with stack := c ++ [b] } (block_cases s b).1 with ⟨hok, h⟩ | h
        · exact Or.inr (Or.inl ⟨c, b, rfl, hsame, hok, h⟩)
        · exact Or.inr (Or.inr (Or.inr ⟨_, _, h⟩))
    · rcases sinkCall_cases { t with stack := chain } (preferenceReset_cases s chain).1 with
        ⟨hok, h⟩ | h
      · exact Or.inr (Or.inr (Or.inl ⟨hok, h⟩))
      · exact Or.inr (Or.inr (Or.inr ⟨_, _, h⟩))

theorem sinkCall_snd (t : Tracker) (r : Except NodeErr Unit × Sink) : (sinkCall t r).2 = (t, r.2) := by
  obtain ⟨res, s⟩ := r
  cases res <;> rfl

/-- A head changes neither the table nor the finalized block nor the store. -/
theorem head_frame (t : Tracker) (s : Sink) (hash : Hash) :
    (t.head s hash).2.1.table = t.table ∧ (t.head s hash).2.1.finalizedHash = t.finalizedHash ∧
      (t.head s hash).2.2.env = s.env := by
  rw [Tracker.head]
  split
  · exact ⟨rfl, rfl, rfl⟩
  · split
    · exact ⟨rfl, rfl, rfl⟩
    · split
      · split
        · exact ⟨rfl, rfl, rfl⟩
        · rename_i b _
          obtain ⟨-, bus, -, hs⟩ := block_cases s b
          rw [sinkCall_snd, hs]
          exact ⟨rfl, rfl, rfl⟩
      · rename_i chain _ _ _
        obtain ⟨-, bus, -, hs⟩ := preferenceReset_cases s chain
        rw [sinkCall_snd, hs]
        exact ⟨rfl, rfl, rfl⟩

end Flatstate.Node
