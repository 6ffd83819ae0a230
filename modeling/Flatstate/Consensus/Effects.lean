import Flatstate.Consensus.Engine

set_option autoImplicit false

/-!
# Consensus: what the live functions of the engine do

None of them touches the bootstrap or the backfill, the transcript only grows, and the
deciding part changes by turns.  One lemma per function says so; nothing later unfolds
them.  The recursion of `tryIssue` is never cut off.

An entry point is a sequence of shifts: the live ones, and the few that move the engine
from the anchor poll through the backfill to live.  `Run.rule` is the invariant rule that
comes with them.
-/

namespace Flatstate.Consensus

open Foundation Schema

variable {T P V N ρ : Type} {S : Setup T P V N ρ} {U : Container → Prop} {now : Nat}

/-- What a live function may change. -/
structure Effect (S : Setup T P V N ρ) (U : Container → Prop) (e e' : Engine T P N) : Prop where
  phase : e'.phase = e.phase
  boot : e'.boot = e.boot
  back : e'.back = e.back
  transcript : e.transcript <+: e'.transcript
  turns : Turns S U e.core e'.core

namespace Effect

theorem refl (e : Engine T P N) : Effect S U e e :=
  ⟨rfl, rfl, rfl, List.prefix_rfl, .refl⟩

theorem trans {e e' e'' : Engine T P N} (h : Effect S U e e') (h' : Effect S U e' e'') :
    Effect S U e e'' :=
  ⟨h'.phase.trans h.phase, h'.boot.trans h.boot, h'.back.trans h.back,
    h.transcript.trans h'.transcript, h.turns.trans h'.turns⟩

/-- An effect after a change of other fields, messages sent apart. -/
theorem after {e e1 e2 : Engine T P N} (h : Effect S U e1 e2) (hp : e1.phase = e.phase)
    (hb : e1.boot = e.boot) (hk : e1.back = e.back) (hc : e1.core = e.core)
    (ht : e.transcript <+: e1.transcript) : Effect S U e e2 :=
  ⟨h.phase.trans hp, h.boot.trans hb, h.back.trans hk, ht.trans h.transcript, hc ▸ h.turns⟩

/-- A change of other fields, messages sent apart. -/
theorem of_eq {e e' : Engine T P N} (hp : e'.phase = e.phase) (hb : e'.boot = e.boot)
    (hk : e'.back = e.back) (hc : e'.core = e.core) (ht : e.transcript <+: e'.transcript) :
    Effect S U e e' :=
  (refl e').after hp hb hk hc ht

/-- A change of the deciding part only. -/
theorem of_turns {e : Engine T P N} {core : Core T} (h : Turns S U e.core core) :
    Effect S U e { e with core := core } :=
  ⟨rfl, rfl, rfl, List.prefix_rfl, h⟩

theorem foldl {α : Type} {f : Engine T P N → α → Engine T P N}
    (hf : ∀ e a, Effect S U e (f e a)) (as : List α) (e : Engine T P N) :
    Effect S U e (as.foldl f e) := by
  induction as generalizing e with
  | nil => exact refl e
  | cons a as ih => exact (hf e a).trans (ih (f e a))

theorem moves {e e' : Engine T P N} (h : Effect S U e e') : Moves S U e.core e'.core :=
  Turns.moves h.turns

end Effect

/-! ## Fetching and voting -/

theorem effect_fetchIfUnknown (e : Engine T P N) (id : ID) :
    Effect S U e (e.fetchIfUnknown S now id) := by
  rw [Engine.fetchIfUnknown]
  split
  · exact .refl e
  split
  · exact .refl e
  split
  · exact .refl e
  split
  · exact .of_eq rfl rfl rfl rfl List.prefix_rfl
  · exact .of_eq rfl rfl rfl rfl (List.prefix_append _ _)

theorem effect_castVote (e : Engine T P N) (v : ParkedVote) (vote : ID) :
    Effect S U e (e.castVote S v vote) :=
  ⟨rfl, rfl, rfl, List.prefix_rfl, .single (.polls _)⟩

theorem effect_dropVote (e : Engine T P N) (v : ParkedVote) : Effect S U e (e.dropVote S v) :=
  ⟨rfl, rfl, rfl, List.prefix_rfl, .single (.polls _)⟩

theorem effect_park (e : Engine T P N) (blocker : ID) (v : ParkedVote) :
    Effect S U e (e.park S now blocker v) :=
  (effect_fetchIfUnknown e blocker).trans (.of_eq rfl rfl rfl rfl List.prefix_rfl)

theorem effect_applyOptions (e : Engine T P N) (v : ParkedVote) (allowPark : Bool)
    (options : List ID) (first : Bool) {e' : Engine T P N}
    (h : e.applyOptions S now v allowPark first options = some e') : Effect S U e e' := by
  induction options generalizing first with
  | nil => simp [Engine.applyOptions] at h
  | cons opt rest ih =>
    rw [Engine.applyOptions] at h
    split at h
    · obtain rfl := Option.some.inj h
      exact effect_castVote e v _
    · split at h
      · obtain rfl := Option.some.inj h
        exact effect_park e _ v
      · exact ih false h

theorem effect_applyVote (e : Engine T P N) (v : ParkedVote) (allowPark : Bool) :
    Effect S U e (e.applyVote S now v allowPark) := by
  rw [Engine.applyVote]
  split
  · rename_i e' h
    exact effect_applyOptions e v allowPark _ true h
  · split
    · exact effect_dropVote e v
    · split
      · exact effect_castVote e v _
      · exact effect_dropVote e v

theorem effect_applyVotes (e : Engine T P N) (vs : List ParkedVote) :
    Effect S U e (e.applyVotes S now vs) :=
  .foldl (fun e v => effect_applyVote e v false) vs e

/-! ## Containers -/

theorem effect_await (e : Engine T P N) (c : Container) : Effect S U e (e.await S now c) := by
  rw [Engine.await]
  dsimp only
  split
  · exact .of_turns (.single (.wait _))
  · exact (effect_fetchIfUnknown e c.parentID).trans (.of_turns (.single (.wait _)))

/-- What holds of each step of a partial fold holds of a fold that goes through. -/
theorem foldlM_rule {α β : Type} {R : β → β → Prop} (hrefl : ∀ b, R b b)
    (htrans : ∀ {b b' b''}, R b b' → R b' b'' → R b b'') {f : β → α → Option β}
    (hf : ∀ b a b', f b a = some b' → R b b') (as : List α) {b b' : β}
    (h : as.foldlM f b = some b') : R b b' := by
  induction as generalizing b with
  | nil =>
    obtain rfl : b = b' := by simpa using h
    exact hrefl b
  | cons a as ih =>
    rw [List.foldlM_cons] at h
    obtain ⟨b1, h1, h2⟩ := Option.bind_eq_some_iff.mp h
    exact htrans (hf b a b1 h1) (ih h2)

/-- What holds of a wait for the parent and of turns of the deciding part holds of
`tryIssue`. -/
theorem tryIssue_rule {R : Engine T P N → Engine T P N → Prop} (hrefl : ∀ e, R e e)
    (htrans : ∀ {e e' e''}, R e e' → R e' e'' → R e e'')
    (hturns : ∀ {e : Engine T P N} {core : Core T}, Turns S U e.core core →
      R e { e with core := core })
    (hawait : ∀ e c, R e (Engine.await S now e c)) (n : Nat) (e : Engine T P N) (id : ID)
    {e' : Engine T P N} (h : e.tryIssue S now n id = some e') : R e e' := by
  induction n generalizing e id e' with
  | zero => simp [Engine.tryIssue] at h
  | succ n ih =>
    rw [Engine.tryIssue] at h
    cases hr : e.core.recs.get id with
    | none =>
      obtain rfl : e = e' := by simpa [hr] using h
      exact hrefl e
    | some r =>
      simp only [hr] at h
      split at h
      · obtain rfl := Option.some.inj h
        exact hrefl e
      · rename_i hi
        cases hp : e.core.parentOf r with
        | none =>
          obtain rfl : e.await S now r.c = e' := by simpa [hp] using h
          exact hawait e r.c
        | some p =>
          have hissue : Turns S U e.core (e.core.issue S r p).2 :=
            .single (.issue hr (by simpa using hi) hp)
          simp only [hp] at h
          cases hres : e.core.issue S r p with
          | mk ok core =>
            rw [hres] at hissue
            simp only [hres] at h
            cases ok with
            | false =>
              obtain rfl := Option.some.inj h
              exact hturns hissue
            | true =>
              -- the children are tried one after the other
              exact htrans (hturns (hissue.tail (.wait _)))
                (foldlM_rule hrefl htrans (fun e id _ => ih e id) _ h)

theorem effect_tryIssue (n : Nat) (e : Engine T P N) (id : ID) {e' : Engine T P N}
    (h : e.tryIssue S now n id = some e') : Effect S U e e' :=
  tryIssue_rule Effect.refl Effect.trans Effect.of_turns effect_await n e id h

theorem effect_addContainer (e : Engine T P N) {c : Container} (hU : U c) :
    Effect S U e (e.addContainer S now c) := by
  rw [Engine.addContainer]
  split
  · exact .refl e
  rename_i hnew
  split
  · exact .refl e
  rename_i hlast
  rw [not_or, UInt64.not_le] at hlast
  have hins : Effect S U e
      { e with core := { e.core with recs := e.core.recs.set c.id ⟨c, false, []⟩ } } :=
    .of_turns (.single (.insert c hU (by simpa using hnew) hlast.1 hlast.2))
  dsimp only
  split
  · exact hins
  · rename_i e1 h1
    have hissue := hins.trans (effect_tryIssue _ _ _ h1)
    split
    · exact hissue
    · exact hissue.trans ((effect_applyVotes _ _).after rfl rfl rfl rfl List.prefix_rfl)

/-! ## The recursion of `tryIssue` ends -/

theorem emitHead_recs (c : Core T) : (c.emitHead S).recs = c.recs := by
  rw [Core.emitHead]
  split
  · rfl
  split
  · rfl
  split <;> rename_i h <;> exact congrArg (fun x => x.2.recs) h.symm

/-- What `issue` does to the containers: the one it issues is marked, one that does not
match its parent is dropped. -/
theorem issue_recs (c : Core T) (r : Rec) (p : Hash × UInt64 × List Capture.Batch) :
    ((c.issue S r p).1 = true ∧
      ∃ line, (c.issue S r p).2.recs = c.recs.set r.c.id ⟨r.c, true, line⟩) ∨
    ((c.issue S r p).1 = false ∧
      ((c.issue S r p).2.recs = c.recs ∨ (c.issue S r p).2.recs = c.recs.erase r.c.id)) := by
  have hexec : (c.execute S p.1 p.2.2 r.c.eth).2.recs = c.recs := rfl
  rw [Core.issue]
  split
  · exact Or.inr ⟨rfl, Or.inr rfl⟩
  · cases h : c.execute S p.1 p.2.2 r.c.eth with
    | mk res c1 =>
      rw [h] at hexec
      cases res with
      | error x => exact Or.inr ⟨rfl, Or.inl hexec⟩
      | ok b =>
        dsimp only
        split
        · exact Or.inr ⟨rfl, Or.inl hexec⟩
        · refine Or.inl ⟨rfl, p.2.2 ++ [b], ?_⟩
          rw [emitHead_recs]
          exact congrArg (fun t => Table.set t r.c.id (⟨r.c, true, p.2.2 ++ [b]⟩ : Rec)) hexec

/-- Containers are kept under their IDs. -/
def Core.Keyed (c : Core T) : Prop := ∀ id r, c.recs.get id = some r → r.c.id = id

theorem keyed_set {c c' : Core T} {r : Rec} (h : c.Keyed) (hc : c'.recs = c.recs.set r.c.id r) :
    c'.Keyed := by
  intro id r' hr'
  rw [hc, Table.get_set] at hr'
  split at hr'
  · rename_i hid
    obtain rfl := Option.some.inj hr'
    exact hid.symm
  · exact h id r' hr'

theorem keyed_erase {c c' : Core T} {id : ID} (h : c.Keyed) (hc : c'.recs = c.recs.erase id) :
    c'.Keyed := by
  intro id' r' hr'
  rw [hc, Table.get_erase] at hr'
  split at hr'
  · cases hr'
  · exact h id' r' hr'

theorem waits_iff {c : Core T} {id : ID} :
    (c.recs.keep (fun _ r => !r.issued)).get id ≠ none ↔
      ∃ r, c.recs.get id = some r ∧ r.issued = false := by
  rw [Table.get_keep]
  cases c.recs.get id <;> simp

/-- Marking a container leaves one less to issue. -/
theorem unissued_issue {c c' : Core T} {r : Rec} {line : List Capture.Batch}
    (hr : c.recs.get r.c.id = some r) (hi : r.issued = false)
    (hc : c'.recs = c.recs.set r.c.id ⟨r.c, true, line⟩) : c'.unissued < c.unissued := by
  refine Table.size_lt_size (k := r.c.id) (fun id hid => ?_) ?_ (waits_iff.mpr ⟨r, hr, hi⟩)
  · obtain ⟨r', hr', hi'⟩ := waits_iff.mp hid
    rw [hc, Table.get_set] at hr'
    split at hr'
    · obtain rfl := Option.some.inj hr'
      simp at hi'
    · exact waits_iff.mpr ⟨r', hr', hi'⟩
  · rw [hc, Table.get_keep, Table.get_set_self]
    rfl

theorem unissued_erase {c c' : Core T} {id : ID} (hc : c'.recs = c.recs.erase id) :
    c'.unissued ≤ c.unissued := by
  refine Table.size_le_size (fun id' hid => ?_)
  obtain ⟨r', hr', hi'⟩ := waits_iff.mp hid
  rw [hc, Table.get_erase] at hr'
  split at hr'
  · cases hr'
  · exact waits_iff.mpr ⟨r', hr', hi'⟩

theorem fetchIfUnknown_core (e : Engine T P N) (id : ID) :
    (e.fetchIfUnknown S now id).core = e.core := by
  rw [Engine.fetchIfUnknown]
  split
  · rfl
  split
  · rfl
  split
  · rfl
  split <;> rfl

theorem await_recs (e : Engine T P N) (c : Container) :
    (e.await S now c).core.recs = e.core.recs := by
  rw [Engine.await]
  dsimp only
  split
  · rfl
  · rw [fetchIfUnknown_core]

/-- With as much fuel as there are containers to issue, `tryIssue` returns: each level of
the recursion has issued one. -/
theorem tryIssue_returns (n : Nat) (e : Engine T P N) (id : ID) (hk : e.core.Keyed)
    (hn : e.core.unissued < n) :
    ∃ e', e.tryIssue S now n id = some e' ∧ e'.core.Keyed ∧
      e'.core.unissued ≤ e.core.unissued := by
  induction n generalizing e id with
  | zero => exact absurd hn (Nat.not_lt_zero _)
  | succ n ih =>
    -- the children, one after another, with the fuel that is left
    have hfold : ∀ (ids : List ID) (e : Engine T P N), e.core.Keyed → e.core.unissued < n →
        ∃ e', ids.foldlM (fun e id => Engine.tryIssue S now n e id) e = some e' ∧
          e'.core.Keyed ∧ e'.core.unissued ≤ e.core.unissued := by
      intro ids
      induction ids with
      | nil => exact fun e hk _ => ⟨e, rfl, hk, Nat.le_refl _⟩
      | cons id ids ihl =>
        intro e hk hn
        obtain ⟨e1, h1, hk1, hle1⟩ := ih e id hk hn
        obtain ⟨e2, h2, hk2, hle2⟩ := ihl e1 hk1 (Nat.lt_of_le_of_lt hle1 hn)
        refine ⟨e2, ?_, hk2, Nat.le_trans hle2 hle1⟩
        rw [List.foldlM_cons, h1]
        exact h2
    rw [Engine.tryIssue]
    cases hr : e.core.recs.get id with
    | none => exact ⟨e, rfl, hk, Nat.le_refl _⟩
    | some r =>
      obtain rfl := hk id r hr
      dsimp only
      split
      · exact ⟨e, rfl, hk, Nat.le_refl _⟩
      · rename_i hi
        cases hp : e.core.parentOf r with
        | none =>
          have hrecs : (e.await S now r.c).core.recs = e.core.recs := await_recs e r.c
          refine ⟨_, rfl, fun id' r' hr' => hk id' r' (hrecs ▸ hr'), ?_⟩
          rw [Core.unissued, Core.unissued, hrecs]
        | some p =>
          have hcases := issue_recs (S := S) e.core r p
          dsimp only
          cases hres : e.core.issue S r p with
          | mk ok core =>
            rw [hres] at hcases
            rcases hcases with ⟨rfl, line, hset⟩ | ⟨rfl, hsame | herase⟩
            · have hlt := unissued_issue hr (by simpa using hi) hset
              obtain ⟨e', h', hk', hle'⟩ :=
                hfold ((core.pendingByPa.get r.c.id).getD [])
                  { e with core := { core with pendingByPa := core.pendingByPa.erase r.c.id } }
                  (keyed_set (r := ⟨r.c, true, line⟩) hk hset) (by
                    have hcore : core.unissued < e.core.unissued := hlt
                    show core.unissued < n
                    omega)
              refine ⟨e', h', hk', Nat.le_trans hle' (Nat.le_of_lt hlt)⟩
            · dsimp only at hsame
              refine ⟨_, rfl, fun id' r' hr' => hk id' r' (hsame ▸ hr'), ?_⟩
              show core.unissued ≤ _
              rw [Core.unissued, Core.unissued, hsame]
            · exact ⟨_, rfl, keyed_erase hk herase, unissued_erase herase⟩

/-! ## Polls -/

theorem effect_sendPoll (e : Engine T P N) : Effect S U e (e.sendPoll S now) := by
  rw [Engine.sendPoll]
  split
  · exact .of_eq rfl rfl rfl rfl List.prefix_rfl
  · exact .of_eq rfl rfl rfl rfl List.prefix_rfl
  · dsimp only
    split
    · exact .of_eq rfl rfl rfl rfl List.prefix_rfl
    · split
      · exact (effect_applyVotes _ _).after rfl rfl rfl rfl List.prefix_rfl
      · exact (effect_applyVotes _ _).after rfl rfl rfl rfl (List.prefix_append _ _)

theorem effect_expirePoll (e : Engine T P N) (reqID : UInt32) (ps : PollState) :
    Effect S U e (e.expirePoll S now reqID ps) := by
  rw [Engine.expirePoll]
  split
  · exact .refl e
  · exact (effect_applyVotes _ _).after rfl rfl rfl rfl List.prefix_rfl

theorem effect_expireVotes (e : Engine T P N) (id : ID) (votes : List ParkedVote) :
    Effect S U e (e.expireVotes S now id votes) :=
  (effect_applyVotes e _).trans (.of_eq rfl rfl rfl rfl List.prefix_rfl)

theorem effect_retryGet (e : Engine T P N) (id : ID) (g : GetReq) :
    Effect S U e (e.retryGet S now id g) := by
  rw [Engine.retryGet]
  split
  · exact .refl e
  · split
    · exact .of_eq rfl rfl rfl rfl List.prefix_rfl
    · exact effect_fetchIfUnknown e id

theorem effect_tickLive (e : Engine T P N) : Effect S U e (e.tickLive S now) := by
  have hpolls (e : Engine T P N) : Effect S U e (e.expirePolls S now) :=
    .foldl (fun e (en : UInt32 × PollState) => effect_expirePoll e en.1 en.2) _ e
  have hparked (e : Engine T P N) : Effect S U e (e.expireParked S now) :=
    .foldl (fun e (en : ID × List ParkedVote) => effect_expireVotes e en.1 en.2) _ e
  have hretry (e : Engine T P N) : Effect S U e (e.retryGets S now) :=
    .foldl (fun e (en : ID × GetReq) => effect_retryGet e en.1 en.2) _ e
  have hgets := ((hpolls e).trans (hparked _)).trans (hretry _)
  rw [Engine.tickLive]
  split
  · split
    · exact hgets.trans (effect_sendPoll _)
    · exact hgets
  · split
    · exact hgets.trans (effect_sendPoll _)
    · exact hgets

/-! ## Shifts -/

/-- What the parts of an entry point do, for containers in `U`. -/
inductive Shift (S : Setup T P V N ρ) (U : Container → Prop) :
    Engine T P N → Engine T P N → Prop where
  | same {e e' : Engine T P N} (hp : e'.phase = e.phase) (hc : e'.core = e.core)
      (hl : e'.back.low = e.back.low) (ha : e'.back.anchor = e.back.anchor)
      (hchain : e'.back.chain = e.back.chain) : Shift S U e e'
  | moves {e e' : Engine T P N} (hp : e.phase = .live) (h : Effect S U e e') : Shift S U e e'
  | found {e : Engine T P N} (hp : e.phase = .pollAnchor) (a : ID) : Shift S U e (e.anchorFound a)
  | take {e : Engine T P N} {c : Container} (hp : e.phase = .backfill) (hc : U c)
      (ht : e.back.takes c = true) : Shift S U e (e.take c)
  | refuse {e : Engine T P N} {start : Container} {f : Fatal} (hp : e.phase = .backfill)
      (hs : startPoint S e.back.chain start = .error f) :
      Shift S U e { e with core := e.core.fail f }
  | stop {e : Engine T P N} {start : Container} {height : UInt64} {hash : Hash} {c : Core T}
      (hp : e.phase = .backfill) (hlow : e.back.low = some start)
      (hs : startPoint S e.back.chain start = .ok (height, hash))
      (hloop : (e.core.makeSink S (seeds e.back.chain start height) height hash).backfillLoop S
        e.back.chain e.back.chain.size (height + 1) hash = (false, c)) :
      Shift S U e { e with core := c }
  | live {e : Engine T P N} {start anchor : Container} {height : UInt64} {hash : Hash} {c : Core T}
      (hp : e.phase = .backfill) (hlow : e.back.low = some start)
      (hanchor : e.back.anchor = some anchor)
      (hs : startPoint S e.back.chain start = .ok (height, hash))
      (hloop : (e.core.makeSink S (seeds e.back.chain start height) height hash).backfillLoop S
        e.back.chain e.back.chain.size (height + 1) hash = (true, c)) :
      Shift S U e (e.goLive S c anchor)

/-- Any number of shifts. -/
abbrev Shifts (S : Setup T P V N ρ) (U : Container → Prop) :
    Engine T P N → Engine T P N → Prop :=
  Relation.ReflTransGen (Shift S U)

theorem shifts_finishBootstrap (e : Engine T P N) (hp : e.phase = .backfill)
    {anchor start : Container} (hlow : e.back.low = some start)
    (hanchor : e.back.anchor = some anchor) :
    Shifts S U e (e.finishBootstrap S now anchor start) := by
  rw [Engine.finishBootstrap]
  cases hs : startPoint S e.back.chain start with
  | error f => exact .single (.refuse hp hs)
  | ok hh =>
    obtain ⟨height, hash⟩ := hh
    dsimp only
    cases hloop : (e.core.makeSink S (seeds e.back.chain start height) height hash).backfillLoop S
        e.back.chain e.back.chain.size (height + 1) hash with
    | mk ok c =>
      cases ok with
      | false => exact .single (.stop hp hlow hs hloop)
      | true =>
        have hlive : Shifts S U e (e.goLive S c anchor) := .single (.live hp hlow hanchor hs hloop)
        exact hlive.tail (.moves rfl (effect_sendPoll _))

theorem shifts_backfillContainer (e : Engine T P N) (hp : e.phase = .backfill) {c : Container}
    (hc : U c) : Shifts S U e (e.backfillContainer S now c) := by
  rw [Engine.backfillContainer]
  split
  · exact .refl
  · rename_i ht
    have htake : Shifts S U e (e.take c) := .single (.take hp hc (by simpa using ht))
    dsimp only
    split
    · exact htake.trans (shifts_finishBootstrap (e.take c) hp rfl rfl)
    · exact htake

/-! ## Containers of the backfill, one at a time -/

/-- What the parts of an entry point do, each container of the backfill taken as a whole. -/
inductive Fetch (S : Setup T P V N ρ) (U : Container → Prop) :
    Engine T P N → Engine T P N → Prop where
  | same {e e' : Engine T P N} (hp : e'.phase = e.phase) (hc : e'.core = e.core)
      (hl : e'.back.low = e.back.low) (ha : e'.back.anchor = e.back.anchor)
      (hchain : e'.back.chain = e.back.chain) (hid : e'.back.anchorID = e.back.anchorID) :
      Fetch S U e e'
  | moves {e e' : Engine T P N} (hp : e.phase = .live) (h : Effect S U e e') : Fetch S U e e'
  | found {e : Engine T P N} (hp : e.phase = .pollAnchor) (a : ID) : Fetch S U e (e.anchorFound a)
  | container {e : Engine T P N} (now : Nat) {c : Container} (hp : e.phase = .backfill) (hc : U c) :
      Fetch S U e (e.backfillContainer S now c)

/-- Any number of them. -/
abbrev Fetches (S : Setup T P V N ρ) (U : Container → Prop) :
    Engine T P N → Engine T P N → Prop :=
  Relation.ReflTransGen (Fetch S U)

theorem Fetch.shifts {e e' : Engine T P N} (h : Fetch S U e e') : Shifts S U e e' := by
  cases h with
  | same hp hc hl ha hchain hid => exact .single (.same hp hc hl ha hchain)
  | moves hp h => exact .single (.moves hp h)
  | found hp a => exact .single (.found hp a)
  | container now hp hc => exact shifts_backfillContainer e hp hc

theorem fetch_sendBackfillRequest (e : Engine T P N) :
    Fetch S U e (e.sendBackfillRequest S now) := by
  rw [Engine.sendBackfillRequest]
  split
  · exact .same rfl rfl rfl rfl rfl rfl
  · dsimp only
    split
    · exact .same rfl rfl rfl rfl rfl rfl
    · exact .same rfl rfl rfl rfl rfl rfl

theorem fetch_sendBootstrapPoll (e : Engine T P N) : Fetch S U e (e.sendBootstrapPoll S now) := by
  rw [Engine.sendBootstrapPoll]
  split
  · exact .same rfl rfl rfl rfl rfl rfl
  · exact .same rfl rfl rfl rfl rfl rfl
  · dsimp only
    split
    · exact .same rfl rfl rfl rfl rfl rfl
    · exact .same rfl rfl rfl rfl rfl rfl

theorem fetches_bootstrapChit (e : Engine T P N) (hp : e.phase = .pollAnchor) (node : NodeID)
    (requestID : UInt32) (accepted : ID) :
    Fetches S U e (e.bootstrapChit S now node requestID accepted) := by
  rw [Engine.bootstrapChit]
  split
  · exact .refl
  · have hcount : Fetches S U e (e.count node accepted) := .single (.same rfl rfl rfl rfl rfl rfl)
    dsimp only
    split
    · exact hcount
    · exact (hcount.tail (.found (e := e.count node accepted) hp accepted)).tail
        (fetch_sendBackfillRequest _)

theorem fetches_ancestorsLoop (raws : List Bytes) (e : Engine T P N) (hp : e.phase = .backfill)
    (hU : ∀ c ∈ raws.filterMap S.parse, U c) : Fetches S U e (e.ancestorsLoop S now raws).2 := by
  induction raws generalizing e with
  | nil => exact .refl
  | cons raw rest ih =>
    rw [Engine.ancestorsLoop]
    cases hc : S.parse raw with
    | none => exact .refl
    | some c =>
      rw [List.filterMap_cons_some hc, List.forall_mem_cons] at hU
      have hback : Fetches S U e (e.backfillContainer S now c) := .single (.container now hp hU.1)
      dsimp only
      split
      · rename_i hp'
        exact hback.trans (ih _ hp' hU.2)
      · exact hback

/-- The live part of `OnChits`. -/
theorem effect_onChits_live {e : Engine T P N} (hp : e.phase = .live) (node : NodeID)
    (requestID : UInt32) (preferred preferredAtHeight accepted : ID) (height : UInt64) :
    Effect S U e (e.onChits S now node requestID preferred preferredAtHeight accepted height) := by
  have hsend : Effect S U e
      (e.send (.chits node requestID preferred preferredAtHeight accepted height)) :=
    .of_eq rfl rfl rfl rfl (List.prefix_append _ _)
  have hps : (e.send (.chits node requestID preferred preferredAtHeight accepted height)).phase =
    .live := hp
  rw [Engine.onChits]
  dsimp only
  split
  · rename_i h
    rw [hps] at h
    cases h
  · rename_i h
    rw [hps] at h
    cases h
  · refine hsend.trans ?_
    split
    · exact .of_eq rfl rfl rfl rfl List.prefix_rfl
    · split
      · exact .of_eq rfl rfl rfl rfl List.prefix_rfl
      · refine Effect.trans ?_ (effect_applyVote _ _ _)
        split
        · refine Effect.trans ?_ (effect_fetchIfUnknown _ _)
          exact (effect_fetchIfUnknown _ _).after rfl rfl rfl rfl List.prefix_rfl
        · exact (effect_fetchIfUnknown _ _).after rfl rfl rfl rfl List.prefix_rfl

/-- Every entry point is a sequence of them. -/
theorem fetches_step (e : Engine T P N) (i : Input) (hU : ∀ c ∈ i.delivers S, U c) :
    Fetches S U e (e.step S now i) := by
  cases i with
  | container node raw =>
    dsimp only [Engine.step]
    rw [Engine.onContainer]
    dsimp only [Input.delivers] at hU
    cases hc : S.parse raw with
    | none => exact .refl
    | some c =>
      rw [hc, Option.toList_some, List.forall_mem_singleton] at hU
      have hdel : Fetches S U e { e with gets := e.gets.erase c.id } :=
        .single (.same rfl rfl rfl rfl rfl rfl)
      dsimp only
      cases hp : e.phase with
      | pollAnchor => simpa only [hp] using hdel
      | backfill =>
        have hback : Fetches S U e
            (Engine.backfillContainer S now { e with gets := e.gets.erase c.id } c) :=
          hdel.tail (.container (e := { e with gets := e.gets.erase c.id }) now hp hU)
        simp only [hp] at hback ⊢
        split
        · exact hback.tail (fetch_sendBackfillRequest _)
        · exact hback
      | live =>
        have hadd : Fetches S U e (Engine.addContainer S now { e with gets := e.gets.erase c.id } c) :=
          hdel.tail (.moves hp (effect_addContainer _ hU))
        simpa only [hp] using hadd
  | chits node requestID preferred preferredAtHeight accepted height =>
    dsimp only [Engine.step]
    have hsend : Fetches S U e
        (e.send (.chits node requestID preferred preferredAtHeight accepted height)) :=
      .single (.same rfl rfl rfl rfl rfl rfl)
    cases hp : e.phase with
    | pollAnchor =>
      have hchit : Fetches S U e (Engine.bootstrapChit S now
          (e.send (.chits node requestID preferred preferredAtHeight accepted height)) node requestID
          accepted) := hsend.trans (fetches_bootstrapChit
        (e.send (.chits node requestID preferred preferredAtHeight accepted height)) hp _ _ _)
      have hsp : (e.send (.chits node requestID preferred preferredAtHeight accepted height)).phase =
        .pollAnchor := hp
      rw [Engine.onChits]
      simpa only [hsp] using hchit
    | backfill =>
      have hsp : (e.send (.chits node requestID preferred preferredAtHeight accepted height)).phase =
        .backfill := hp
      rw [Engine.onChits]
      simpa only [hsp] using hsend
    | live => exact .single (.moves hp (effect_onChits_live hp _ _ _ _ _ _))
  | ancestors node requestID raws =>
    dsimp only [Engine.step]
    rw [Engine.onAncestors]
    split
    · exact .refl
    · rename_i hguard
      rw [not_or, not_not] at hguard
      have hzero : Fetches S U e { e with back := { e.back with reqID := 0 } } :=
        .single (.same rfl rfl rfl rfl rfl rfl)
      have hloop : Fetches S U e (Engine.ancestorsLoop S now
          { e with back := { e.back with reqID := 0 } } raws).2 :=
        hzero.trans (fetches_ancestorsLoop raws { e with back := { e.back with reqID := 0 } } hguard.1 hU)
      cases h : Engine.ancestorsLoop S now { e with back := { e.back with reqID := 0 } } raws with
      | mk ok e' =>
        rw [h] at hloop
        cases ok with
        | false => exact hloop
        | true => exact hloop.tail (fetch_sendBackfillRequest e')
  | tick =>
    dsimp only [Engine.step]
    rw [Engine.tick]
    cases hp : e.phase with
    | pollAnchor =>
      dsimp only
      split
      · exact .single (fetch_sendBootstrapPoll e)
      · exact .refl
    | backfill =>
      dsimp only
      split
      · exact .single (fetch_sendBackfillRequest e)
      · exact .refl
    | live => exact .single (.moves hp (effect_tickLive e))

/-- The invariant rule for runs: what every part of an entry point keeps, and a look of the
store handle, holds throughout. -/
theorem Run.fetch_rule {Q : Engine T P N → Input → Prop} {e0 e : Engine T P N}
    (h : Run S U Q e0 e) (I : Engine T P N → Prop) (hinit : I e0)
    (hfetch : ∀ e e', I e → Fetch S U e e' → I e')
    (hlooks : ∀ (e : Engine T P N) (handle : Store.Handle), I e →
      Store.Coherent handle e.core.host.sink.env →
      I { e with core := { e.core with host := { e.core.host with handle := handle } } }) : I e := by
  have hfetches : ∀ e e', I e → Fetches S U e e' → I e' := by
    intro e e' hI hs
    induction hs with
    | refl => exact hI
    | tail _ hlast ih => exact hfetch _ _ ih hlast
  induction h with
  | init => exact hinit
  | call h now i hU hQ ih => exact hfetches _ _ ih (fetches_step _ i hU)
  | net h n ih => exact hfetch _ _ ih (.same rfl rfl rfl rfl rfl rfl)
  | reorder h ho ih =>
    rw [ho.rest]
    exact hfetch _ _ ih (.same rfl rfl rfl rfl rfl rfl)
  | looks h handle hc ih => exact hlooks _ handle ih hc

/-- The same for what every shift keeps. -/
theorem Run.rule {Q : Engine T P N → Input → Prop} {e0 e : Engine T P N} (h : Run S U Q e0 e)
    (I : Engine T P N → Prop) (hinit : I e0)
    (hshift : ∀ e e', I e → Shift S U e e' → I e')
    (hlooks : ∀ (e : Engine T P N) (handle : Store.Handle), I e →
      Store.Coherent handle e.core.host.sink.env →
      I { e with core := { e.core with host := { e.core.host with handle := handle } } }) : I e := by
  refine h.fetch_rule I hinit (fun e e' hI hf => ?_) hlooks
  have hshifts := hf.shifts
  clear hf
  induction hshifts with
  | refl => exact hI
  | tail _ hlast ih => exact hshift _ _ ih hlast

end Flatstate.Consensus
