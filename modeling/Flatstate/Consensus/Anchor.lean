import Flatstate.Consensus.Effects

set_option autoImplicit false

/-!
# Consensus: who decides the bootstrap anchor

The anchor is the container that `AlphaPreference` nodes name in answer to one bootstrap
query.  The engine counts one chit per node, but does not ask whether it had queried the
node: the anchor is decided by sampled validators in every run in which nobody else
answers the current request, and only there.
-/

namespace Flatstate.Consensus

open Foundation Schema

variable {T P V N ρ : Type} {S : Setup T P V N ρ} {U : Container → Prop} {now : Nat}

/-! ## The current bootstrap query -/

/-- The current bootstrap query went to `targets`, and `since` is what was sent and heard
after it. -/
def Asked (e : Engine T P N) (targets : List NodeID) (since : List Msg) : Prop :=
  ∃ before, e.transcript = before ++ .pullQuery targets e.boot.reqID ID.empty 0 :: since

/-- A query. -/
def Msg.isQuery : Msg → Bool
  | .pullQuery .. => true
  | _ => false

/-- The last query sent is the current bootstrap query, and `node` is among its targets. -/
def Sampled (e : Engine T P N) (node : NodeID) : Prop :=
  ∃ targets since, Asked e targets since ∧ (∀ m ∈ since, m.isQuery = false) ∧ node ∈ targets

/-- A chit that the anchor poll would count comes from a node it was sent to. -/
def FromSample (e : Engine T P N) : Input → Prop
  | .chits node requestID _ _ _ _ =>
    e.phase = .pollAnchor → requestID = e.boot.reqID → Sampled e node
  | _ => True

/-- A node has answered the current bootstrap query with `a`. -/
def Answer (e : Engine T P N) (since : List Msg) (node : NodeID) (a : ID) : Prop :=
  ∃ preferred preferredAtHeight height,
    .chits node e.boot.reqID preferred preferredAtHeight a height ∈ since

/-- At least `AlphaPreference` nodes of the sample of the current bootstrap query have
answered it with the anchor. -/
def AnchorVoted (S : Setup T P V N ρ) (e : Engine T P N) : Prop :=
  ∃ (targets : List NodeID) (since : List Msg) (voters : List NodeID), Asked e targets since ∧
    voters.Nodup ∧ S.cfg.alphaPreference ≤ voters.length ∧
    ∀ n ∈ voters, n ∈ targets ∧ Answer e since n e.back.anchorID

/-- Every node whose chit was counted is in the sample of the current bootstrap query. -/
def VotersSampled (e : Engine T P N) : Prop :=
  ∀ n ∈ e.boot.voters, ∃ targets since, Asked e targets since ∧ n ∈ targets

/-! ## After the anchor is decided -/

/-- What everything after the anchor poll leaves alone. -/
structure Decided (e e' : Engine T P N) : Prop where
  phase : e.phase ≠ .pollAnchor → e'.phase ≠ .pollAnchor
  boot : e'.boot = e.boot
  anchorID : e'.back.anchorID = e.back.anchorID
  transcript : e.transcript <+: e'.transcript

namespace Decided

theorem refl (e : Engine T P N) : Decided e e := ⟨id, rfl, rfl, List.prefix_rfl⟩

theorem trans {e e' e'' : Engine T P N} (h : Decided e e') (h' : Decided e' e'') : Decided e e'' :=
  ⟨h'.phase ∘ h.phase, h'.boot.trans h.boot, h'.anchorID.trans h.anchorID,
    h.transcript.trans h'.transcript⟩

theorem of_effect {e e' : Engine T P N} (h : Effect S U e e') : Decided e e' :=
  ⟨fun hp => h.phase ▸ hp, h.boot, congrArg Backfill.anchorID h.back, h.transcript⟩

/-- After a change of other fields. -/
theorem after {e e1 e2 : Engine T P N} (h : Decided e1 e2) (hp : e1.phase = e.phase)
    (hb : e1.boot = e.boot) (ha : e1.back.anchorID = e.back.anchorID)
    (ht : e.transcript <+: e1.transcript) : Decided e e2 :=
  ⟨fun hn => h.phase (hp ▸ hn), h.boot.trans hb, h.anchorID.trans ha, ht.trans h.transcript⟩

/-- A change of other fields. -/
theorem of_eq {e e' : Engine T P N} (hp : e'.phase = e.phase) (hb : e'.boot = e.boot)
    (ha : e'.back.anchorID = e.back.anchorID) (ht : e.transcript <+: e'.transcript) :
    Decided e e' :=
  (refl e').after hp hb ha ht

theorem asked {e e' : Engine T P N} (h : Decided e e') {targets : List NodeID} {since : List Msg}
    (ha : Asked e targets since) : ∃ more, Asked e' targets (since ++ more) := by
  obtain ⟨before, hb⟩ := ha
  obtain ⟨more, hm⟩ := h.transcript
  refine ⟨more, before, ?_⟩
  rw [← hm, hb, h.boot]
  simp

theorem anchorVoted {e e' : Engine T P N} (h : Decided e e') (ha : AnchorVoted S e) :
    AnchorVoted S e' := by
  obtain ⟨targets, since, voters, hasked, hnodup, hlen, hall⟩ := ha
  obtain ⟨more, hmore⟩ := h.asked hasked
  refine ⟨targets, since ++ more, voters, hmore, hnodup, hlen, fun n hn => ?_⟩
  obtain ⟨ht, p, q, k, hm⟩ := hall n hn
  refine ⟨ht, p, q, k, ?_⟩
  rw [h.boot, h.anchorID]
  exact List.mem_append_left more hm

theorem votersSampled {e e' : Engine T P N} (h : Decided e e') (hv : VotersSampled e) :
    VotersSampled e' := by
  intro n hn
  rw [h.boot] at hn
  obtain ⟨targets, since, hasked, ht⟩ := hv n hn
  obtain ⟨more, hmore⟩ := h.asked hasked
  exact ⟨targets, since ++ more, hmore, ht⟩

end Decided

theorem decided_sendBackfillRequest (e : Engine T P N) :
    Decided e (e.sendBackfillRequest S now) := by
  rw [Engine.sendBackfillRequest]
  split
  · exact .of_eq rfl rfl rfl List.prefix_rfl
  · dsimp only
    split
    · exact .of_eq rfl rfl rfl (List.prefix_append _ _)
    · exact .of_eq rfl rfl rfl (List.prefix_append _ _)

theorem decided_finishBootstrap (e : Engine T P N) (anchor start : Container) :
    Decided e (e.finishBootstrap S now anchor start) := by
  rw [Engine.finishBootstrap]
  split
  · exact .of_eq rfl rfl rfl List.prefix_rfl
  · dsimp only
    split
    · exact .of_eq rfl rfl rfl List.prefix_rfl
    · rename_i c _
      have hlive : Decided e (e.goLive S c anchor) :=
        ⟨fun _ => by simp [Engine.goLive], rfl, rfl, List.prefix_rfl⟩
      exact hlive.trans (.of_effect (S := S) (U := fun _ => True) (effect_sendPoll _))

theorem decided_backfillContainer (e : Engine T P N) (c : Container) :
    Decided e (e.backfillContainer S now c) := by
  rw [Engine.backfillContainer]
  split
  · exact .refl e
  · dsimp only
    split
    · exact (decided_finishBootstrap _ _ _).after rfl rfl rfl List.prefix_rfl
    · exact .of_eq rfl rfl rfl List.prefix_rfl

theorem decided_ancestorsLoop (raws : List Bytes) (e : Engine T P N) :
    Decided e (e.ancestorsLoop S now raws).2 := by
  induction raws generalizing e with
  | nil => exact .refl e
  | cons raw rest ih =>
    rw [Engine.ancestorsLoop]
    split
    · exact .refl e
    · dsimp only
      split
      · exact (decided_backfillContainer e _).trans (ih _)
      · exact decided_backfillContainer e _

/-- Once the anchor is decided, no call touches the poll. -/
theorem decided_step {e : Engine T P N} (hp : e.phase ≠ .pollAnchor) (i : Input) :
    Decided e (e.step S now i) := by
  cases i with
  | container node raw =>
    dsimp only [Engine.step]
    rw [Engine.onContainer]
    split
    · exact .refl e
    · rename_i c _
      have hdel : Decided e { e with gets := e.gets.erase c.id } :=
        .of_eq rfl rfl rfl List.prefix_rfl
      dsimp only
      split
      · exact hdel
      · split
        · exact (hdel.trans (decided_backfillContainer _ c)).trans (decided_sendBackfillRequest _)
        · exact hdel.trans (decided_backfillContainer _ c)
      · exact hdel.trans (.of_effect (S := S) (effect_addContainer (U := fun _ => True) _ trivial))
  | chits node requestID preferred preferredAtHeight accepted height =>
    dsimp only [Engine.step]
    cases hphase : e.phase with
    | pollAnchor => exact absurd hphase hp
    | backfill =>
      have hps : (e.send (.chits node requestID preferred preferredAtHeight accepted height)).phase =
        .backfill := hphase
      rw [Engine.onChits]
      simp only [hps]
      exact .of_eq rfl rfl rfl (List.prefix_append _ _)
    | live =>
      exact .of_effect (S := S) (U := fun _ => True) (effect_onChits_live hphase _ _ _ _ _ _)
  | ancestors node requestID raws =>
    dsimp only [Engine.step]
    rw [Engine.onAncestors]
    split
    · exact .refl e
    · have hloop : Decided e (Engine.ancestorsLoop S now
          { e with back := { e.back with reqID := 0 } } raws).2 :=
        (decided_ancestorsLoop raws _).after rfl rfl rfl List.prefix_rfl
      cases h : Engine.ancestorsLoop S now { e with back := { e.back with reqID := 0 } } raws with
      | mk ok e' =>
        rw [h] at hloop
        cases ok with
        | false => exact hloop
        | true => exact hloop.trans (decided_sendBackfillRequest e')
  | tick =>
    dsimp only [Engine.step]
    rw [Engine.tick]
    split
    · rename_i hpoll
      exact absurd hpoll hp
    · split
      · exact decided_sendBackfillRequest e
      · exact .refl e
    · exact .of_effect (S := S) (U := fun _ => True) (effect_tickLive e)

/-! ## While the anchor is polled -/

/-- The last query of a transcript is one query. -/
theorem last_query_unique {l l' s s' : List Msg} {m m' : Msg} (h : l ++ m :: s = l' ++ m' :: s')
    (hm : m.isQuery = true) (hm' : m'.isQuery = true) (hs : ∀ x ∈ s, x.isQuery = false)
    (hs' : ∀ x ∈ s', x.isQuery = false) : m = m' ∧ s = s' := by
  rcases List.append_eq_append_iff.mp h with ⟨r, -, hr⟩ | ⟨r, -, hr⟩
  · cases r with
    | nil => exact List.cons.inj hr
    | cons x r =>
      have hmem : m' ∈ s := by
        rw [(List.cons.inj hr).2]
        simp
      rw [hs m' hmem] at hm'
      cases hm'
  · cases r with
    | nil =>
      obtain ⟨h1, h2⟩ := List.cons.inj hr
      exact ⟨h1.symm, h2.symm⟩
    | cons x r =>
      have hmem : m ∈ s' := by
        rw [(List.cons.inj hr).2]
        simp
      rw [hs' m hmem] at hm
      cases hm

/-- The ballots of a poll: one per node, all of the current query's sample. -/
structure Ballots (e : Engine T P N) (ballots : List (NodeID × ID)) : Prop where
  voters : e.boot.voters = ballots.map Prod.fst
  nodup : e.boot.voters.Nodup
  votes : ∀ a, e.boot.tally a = ballots.countP (fun b => b.2 = a)
  answers : ballots = [] ∨ ∃ targets since, Asked e targets since ∧
    (∀ m ∈ since, m.isQuery = false) ∧ ∀ b ∈ ballots, b.1 ∈ targets ∧ Answer e since b.1 b.2

/-- What holds of every engine reached: while the anchor is polled the votes are ballots,
afterwards the anchor was voted for. -/
structure AnchorInv (S : Setup T P V N ρ) (e : Engine T P N) : Prop where
  polled : e.phase = .pollAnchor → ∃ ballots, Ballots e ballots
  decided : e.phase ≠ .pollAnchor → AnchorVoted S e ∧ VotersSampled e

theorem Ballots.congr {e e' : Engine T P N} {ballots : List (NodeID × ID)} (h : Ballots e ballots)
    (hb : e'.boot = e.boot) (ht : e'.transcript = e.transcript) : Ballots e' ballots := by
  obtain ⟨h1, h2, h3, h4⟩ := h
  refine ⟨by rw [hb]; exact h1, by rw [hb]; exact h2, by rw [hb]; exact h3, ?_⟩
  simp only [Asked, Answer, hb, ht] at h4 ⊢
  exact h4

theorem Ballots.anchorFound {e : Engine T P N} {ballots : List (NodeID × ID)}
    (h : Ballots e ballots) (a : ID) : Ballots (e.anchorFound a) ballots :=
  h.congr rfl rfl

/-- A poll that was just cleared. -/
theorem Ballots.cleared {e : Engine T P N} (hv : e.boot.voters = [])
    (ht : ∀ a, e.boot.votes.get a = none) : Ballots e [] :=
  ⟨hv, by rw [hv]; exact List.nodup_nil, fun a => by simp [Bootstrap.tally, ht a], Or.inl rfl⟩

/-- Hearing a chit changes nothing yet. -/
theorem Ballots.heard {e : Engine T P N} {ballots : List (NodeID × ID)} (h : Ballots e ballots)
    {m : Msg} (hm : m.isQuery = false) : Ballots (e.send m) ballots := by
  refine ⟨h.voters, h.nodup, h.votes, h.answers.imp id ?_⟩
  rintro ⟨targets, since, ⟨before, hb⟩, hs, hall⟩
  refine ⟨targets, since ++ [m], ⟨before, ?_⟩, ?_, fun b hb' => ?_⟩
  · show e.transcript ++ [m] = _
    rw [hb]
    simp [Engine.send]
  · intro x hx
    rcases List.mem_append.mp hx with hx | hx
    · exact hs x hx
    · rwa [List.mem_singleton.mp hx]
  · obtain ⟨ht, p, q, k, hmem⟩ := hall b hb'
    exact ⟨ht, p, q, k, List.mem_append_left _ hmem⟩

/-- A counted chit of a sampled node is one more ballot. -/
theorem Ballots.count {e : Engine T P N} {ballots : List (NodeID × ID)} (h : Ballots e ballots)
    {node : NodeID} {a : ID} {targets : List NodeID} {since : List Msg}
    (hasked : Asked e targets since) (hs : ∀ m ∈ since, m.isQuery = false) (hn : node ∈ targets)
    (hans : Answer e since node a) (hnew : node ∉ e.boot.voters) :
    Ballots (e.count node a) ((node, a) :: ballots) ∧
      ∀ b ∈ (node, a) :: ballots, b.1 ∈ targets ∧ Answer (e.count node a) since b.1 b.2 := by
  have hall : ∀ b ∈ (node, a) :: ballots, b.1 ∈ targets ∧ Answer e since b.1 b.2 := by
    refine List.forall_mem_cons.mpr ⟨⟨hn, hans⟩, fun b hmem => ?_⟩
    rcases h.answers with rfl | ⟨targets', since', ⟨before', hb'⟩, hs', hall'⟩
    · cases hmem
    · obtain ⟨before, hbefore⟩ := hasked
      obtain ⟨hq, rfl⟩ := last_query_unique (hbefore.symm.trans hb') rfl rfl hs hs'
      obtain rfl : targets = targets' := by injection hq
      exact hall' b hmem
  refine ⟨⟨?_, ?_, fun a' => ?_, Or.inr ⟨targets, since, hasked, hs, hall⟩⟩, hall⟩
  · show node :: e.boot.voters = _
    rw [List.map_cons, ← h.voters]
  · exact List.nodup_cons.mpr ⟨hnew, h.nodup⟩
  · rw [List.countP_cons, ← h.votes a']
    show ((e.boot.votes.set a (e.boot.tally a + 1)).get a').getD 0 = _
    rw [Table.get_set]
    by_cases ha : a' = a
    · subst ha
      simp
    · simp [ha, Ne.symm ha, Bootstrap.tally]

/-- The voters for one container. -/
theorem Ballots.anchorVoted {e : Engine T P N} {ballots : List (NodeID × ID)} (h : Ballots e ballots)
    {targets : List NodeID} {since : List Msg} (hasked : Asked e targets since)
    (hall : ∀ b ∈ ballots, b.1 ∈ targets ∧ Answer e since b.1 b.2)
    (hn : S.cfg.alphaPreference ≤ e.boot.tally e.back.anchorID) : AnchorVoted S e := by
  have hnodup : (ballots.map Prod.fst).Nodup := h.voters ▸ h.nodup
  refine ⟨targets, since, (ballots.filter (fun b => b.2 = e.back.anchorID)).map Prod.fst, hasked,
    (hnodup.sublist (List.filter_sublist.map _)), ?_, fun n hmem => ?_⟩
  · rw [List.length_map, ← List.countP_eq_length_filter, ← h.votes]
    exact hn
  · obtain ⟨b, hb, rfl⟩ := List.mem_map.mp hmem
    obtain ⟨hb, ha⟩ := List.mem_filter.mp hb
    obtain ⟨ht, hans⟩ := hall b hb
    have hsnd : b.2 = e.back.anchorID := by simpa using ha
    exact ⟨ht, hsnd ▸ hans⟩

theorem Ballots.votersSampled {e : Engine T P N} {ballots : List (NodeID × ID)}
    (h : Ballots e ballots) : VotersSampled e := by
  intro n hn
  rw [h.voters] at hn
  obtain ⟨b, hb, rfl⟩ := List.mem_map.mp hn
  rcases h.answers with rfl | ⟨targets, since, hasked, -, hall⟩
  · cases hb
  · exact ⟨targets, since, hasked, (hall b hb).1⟩

/-! ## Every run -/

theorem AnchorInv.congr {e e' : Engine T P N} (h : AnchorInv S e) (hp : e'.phase = e.phase)
    (hb : e'.boot = e.boot) (hk : e'.back = e.back) (ht : e'.transcript = e.transcript) :
    AnchorInv S e' := by
  have hd : Decided e e' := .of_eq hp hb (by rw [hk]) (ht ▸ List.prefix_rfl)
  refine ⟨fun hpoll => ?_, fun hpoll => ?_⟩
  · obtain ⟨ballots, hbal⟩ := h.polled (hp ▸ hpoll)
    exact ⟨ballots, hbal.congr hb ht⟩
  · obtain ⟨h1, h2⟩ := h.decided (hp ▸ hpoll)
    exact ⟨hd.anchorVoted h1, hd.votersSampled h2⟩

theorem AnchorInv.of_ballots {e : Engine T P N} (hp : e.phase = .pollAnchor)
    {ballots : List (NodeID × ID)} (h : Ballots e ballots) : AnchorInv S e :=
  ⟨fun _ => ⟨ballots, h⟩, fun hne => absurd hp hne⟩

theorem anchorInv_sendBootstrapPoll {e : Engine T P N} (hp : e.phase = .pollAnchor)
    (h : AnchorInv S e) : AnchorInv S (e.sendBootstrapPoll S now) := by
  rw [Engine.sendBootstrapPoll]
  split
  · exact h.congr rfl rfl rfl rfl
  · exact h.congr rfl rfl rfl rfl
  · dsimp only
    split
    · exact .of_ballots hp (.cleared rfl fun a => rfl)
    · exact .of_ballots hp (.cleared rfl fun a => rfl)

/-- A chit, given that only sampled nodes answer the current request. -/
theorem anchorInv_bootstrapChit {e : Engine T P N} (hp : e.phase = .pollAnchor)
    {ballots : List (NodeID × ID)} (h : Ballots e ballots) {node : NodeID} {requestID : UInt32}
    {preferred preferredAtHeight accepted : ID} {height : UInt64}
    (hsample : requestID = e.boot.reqID → Sampled e node) :
    AnchorInv S ((e.send (.chits node requestID preferred preferredAtHeight accepted
      height)).bootstrapChit S now node requestID accepted) := by
  have hheard := h.heard (m := .chits node requestID preferred preferredAtHeight accepted height) rfl
  rw [Engine.bootstrapChit]
  split
  · exact .of_ballots hp hheard
  · rename_i hcount
    rw [not_or, not_not] at hcount
    obtain ⟨hreq, hnew⟩ := hcount
    obtain ⟨targets, since, ⟨before, hb⟩, hs, hn⟩ := hsample hreq
    -- the chit is now the last thing heard since the query
    have hasked : Asked (e.send (.chits node requestID preferred preferredAtHeight accepted height))
        targets (since ++ [.chits node requestID preferred preferredAtHeight accepted height]) := by
      refine ⟨before, ?_⟩
      show e.transcript ++ _ = _
      rw [hb]
      simp [Engine.send]
    have hans : Answer (e.send (.chits node requestID preferred preferredAtHeight accepted height))
        (since ++ [.chits node requestID preferred preferredAtHeight accepted height]) node
        accepted := by
      refine ⟨preferred, preferredAtHeight, height, ?_⟩
      rw [← hreq]
      simp
    have hs' : ∀ m ∈ since ++ [Msg.chits node requestID preferred preferredAtHeight accepted height],
        m.isQuery = false := by
      intro m hm
      rcases List.mem_append.mp hm with hm | hm
      · exact hs m hm
      · rw [List.mem_singleton.mp hm]
        rfl
    obtain ⟨hbal, hall⟩ := hheard.count hasked hs' hn hans hnew
    dsimp only
    split
    · exact .of_ballots hp hbal
    · rename_i hge
      -- the vote that decides
      have hd : Decided _ (Engine.sendBackfillRequest S now
          (((e.send (.chits node requestID preferred preferredAtHeight accepted height)).count node
            accepted).anchorFound accepted)) := decided_sendBackfillRequest _
      have hvoted := (hbal.anchorFound accepted).anchorVoted (S := S) hasked hall
        (Nat.le_of_not_lt hge)
      exact ⟨fun hpoll => absurd hpoll (hd.phase (by simp [Engine.anchorFound])),
        fun _ => ⟨hd.anchorVoted hvoted, hd.votersSampled hbal.votersSampled⟩⟩

theorem anchorInv_step {e : Engine T P N} (h : AnchorInv S e) {i : Input} (hi : FromSample e i) :
    AnchorInv S (e.step S now i) := by
  by_cases hp : e.phase = .pollAnchor
  · obtain ⟨ballots, hbal⟩ := h.polled hp
    cases i with
    | container node raw =>
      dsimp only [Engine.step]
      rw [Engine.onContainer]
      split
      · exact h
      · simp only [hp]
        exact h.congr hp.symm rfl rfl rfl
    | chits node requestID preferred preferredAtHeight accepted height =>
      dsimp only [Engine.step]
      rw [Engine.onChits]
      have hsend : (e.send (.chits node requestID preferred preferredAtHeight accepted
        height)).phase = .pollAnchor := hp
      simp only [hsend]
      exact anchorInv_bootstrapChit hp hbal (hi hp)
    | ancestors node requestID raws =>
      dsimp only [Engine.step]
      rw [Engine.onAncestors, if_pos (Or.inl (by simp [hp]))]
      exact h
    | tick =>
      dsimp only [Engine.step]
      rw [Engine.tick, hp]
      dsimp only
      split
      · exact anchorInv_sendBootstrapPoll hp h
      · exact h
  · obtain ⟨h1, h2⟩ := h.decided hp
    have hd : Decided e (e.step S now i) := decided_step hp i
    exact ⟨fun hpoll => absurd hpoll (hd.phase hp), fun _ => ⟨hd.anchorVoted h1, hd.votersSampled h2⟩⟩

theorem anchorInv_run {host : Host} {net : N} {e : Engine T P N}
    (h : Run S U FromSample (Engine.new S host net) e) : AnchorInv S e := by
  induction h with
  | init => exact .of_ballots rfl (.cleared rfl fun a => rfl)
  | call h now i hU hQ ih => exact anchorInv_step ih hQ
  | net _ _ ih | looks _ _ _ ih => exact ih.congr rfl rfl rfl rfl
  | reorder h ho ih =>
    rw [ho.rest]
    exact ih.congr rfl rfl rfl rfl

/-- In every run in which only nodes of its sample answer the current bootstrap query, the
anchor is decided by `AlphaPreference` distinct nodes of the sample, and nobody else's
chit is ever counted. -/
theorem anchor_decided_by_sample {host : Host} {net : N} {e : Engine T P N}
    (h : Run S U FromSample (Engine.new S host net) e) :
    (e.phase ≠ .pollAnchor → AnchorVoted S e) ∧ VotersSampled e := by
  have hinv := anchorInv_run h
  refine ⟨fun hp => (hinv.decided hp).1, ?_⟩
  by_cases hp : e.phase = .pollAnchor
  · obtain ⟨ballots, hbal⟩ := hinv.polled hp
    exact hbal.votersSampled
  · exact (hinv.decided hp).2

namespace Sample

open Exec Node Store.Sample

/-- A small consensus object: a list of processing containers with different IDs, the
newest first. -/
structure Procs where
  last : ID
  procs : List Container
  nodup : (procs.map Container.id).Nodup

/-- Snowman with one vote per poll and `beta` one: a vote for a child of the last accepted
container accepts it and rejects its siblings.  It is used with one container on top of
the last accepted one at the time of a vote. -/
def topo : Topological Procs (Option ID) where
  blank := ⟨ID.empty, [], List.nodup_nil⟩
  init id _ _ := ⟨id, [], List.nodup_nil⟩
  add t c :=
    if h : c.id ∈ t.procs.map Container.id then none
    else some ⟨t.last, c :: t.procs, List.nodup_cons.mpr ⟨h, t.nodup⟩⟩
  recordPoll t v :=
    match t.procs.find? (fun c => some c.id = v ∧ c.parentID = t.last) with
    | none => ([], t)
    | some c =>
      (.accept c :: (t.procs.filter (fun o => o.id ≠ c.id)).map .reject, ⟨c.id, [], List.nodup_nil⟩)
  aborted t _ _ := t
  preference t := (t.procs.head?.map Container.id).getD t.last
  processing t id := id ∈ t.procs.map Container.id
  numProcessing t := t.procs.length

/-- Polls of one node: its vote is the result. -/
def polls : PollSet Procs Unit (Option ID) where
  new := ()
  add _ _ _ := some ()
  vote _ _ _ _ id := ([some id], ())
  drop _ _ _ _ := ([none], ())
  len _ := 0

def node (n : Nat) : NodeID := FixedBytes.ofNat 20 n

/-- A network whose sample is always nodes 1 and 2, both connected. -/
def net : NetOps UInt32 where
  nextRequestID n := (n + 1, n + 1)
  sampleValidators n _ := (some [node 1, node 2], n)
  isConnected _ _ := true
  selectPeer n := (some (node 1), n)

/-- A block that gives the account as much as its body is long. -/
def evm : Evm Unit where
  run _ blk := some ([.account addr (acct blk.body.length)], 0, ())
  receiptsRoot _ := Hash.zero
  bloom _ := []

def eth (hash parent : Nat) (number : UInt64) (body : Bytes) : EthBlock :=
  ⟨FixedBytes.ofNat 32 hash, FixedBytes.ofNat 32 parent, number, 0, 0, Hash.zero, [], body⟩

/-- A container: ID, parent ID, eth hash, parent eth hash, number and body, one byte each
and the rest the body. -/
def parse : Bytes → Option Container
  | id :: parentID :: hash :: parentHash :: number :: body =>
    some ⟨FixedBytes.ofNat 32 id.toNat, FixedBytes.ofNat 32 parentID.toNat,
      eth hash.toNat parentHash.toNat number.toUInt64 body⟩
  | _ => none

/-- A follower that resumes on block 5 and needs two nodes to agree on the anchor. -/
def setup : Setup Procs Unit (Option ID) UInt32 Unit where
  cfg := ⟨some ⟨5, none⟩, true, 0, 2, 2, 4, 1, 1, 1⟩
  topo := topo
  polls := polls
  net := net
  evm := evm
  keccak := digest
  parse := parse

/-- The sink and the executor over the finished baseline. -/
def host : Host where
  sink := Node.Sample.started.sink
  tracker := newTracker 0 Hash.zero
  exec := Executor.new
  handle := finished.writer

/-- The bootstrap query was sent, to nodes 1 and 2. -/
def asked : Engine Procs Unit UInt32 := (Engine.new setup host 0).tick setup 0

/-- Nodes `n` and `m` answer it with container 105. -/
def answered (n m : Nat) : Engine Procs Unit UInt32 :=
  (asked.onChits setup 0 (node n) 1 ID.empty ID.empty (FixedBytes.ofNat 32 105) 5).onChits setup 0
    (node m) 1 ID.empty ID.empty (FixedBytes.ofNat 32 105) 5

theorem asked_run {U : Container → Prop} {Q : Engine Procs Unit UInt32 → Input → Prop}
    (hQ : ∀ e, Q e .tick) : Run setup U Q (Engine.new setup host 0) asked :=
  Run.init.call 0 .tick (by simp [Input.delivers]) (hQ _)

/-- The two answers, as calls of a run. -/
theorem answered_run {U : Container → Prop} {Q : Engine Procs Unit UInt32 → Input → Prop} {n m : Nat}
    (h : Run setup U Q (Engine.new setup host 0) asked)
    (h1 : Q asked (.chits (node n) 1 ID.empty ID.empty (FixedBytes.ofNat 32 105) 5))
    (h2 : Q (asked.onChits setup 0 (node n) 1 ID.empty ID.empty (FixedBytes.ofNat 32 105) 5)
      (.chits (node m) 1 ID.empty ID.empty (FixedBytes.ofNat 32 105) 5)) :
    Run setup U Q (Engine.new setup host 0) (answered n m) :=
  (h.call 0 (.chits (node n) 1 ID.empty ID.empty (FixedBytes.ofNat 32 105) 5)
    (by simp [Input.delivers]) h1).call 0
      (.chits (node m) 1 ID.empty ID.empty (FixedBytes.ofNat 32 105) 5)
      (by simp [Input.delivers]) h2

end Sample

open Sample in
/-- The two sampled nodes decide the anchor. -/
theorem anchor_decided_by_sample_nodes :
    (answered 1 2).phase = .backfill ∧ AnchorVoted setup (answered 1 2) := by
  have hrun : Run setup (fun _ => True) FromSample (Engine.new setup host 0) (answered 1 2) := by
    refine answered_run (asked_run fun e => trivial) (fun _ _ => ?_) (fun _ _ => ?_)
    · exact ⟨[node 1, node 2], [], ⟨[], rfl⟩, by simp, by simp⟩
    · exact ⟨[node 1, node 2],
        [.chits (node 1) 1 ID.empty ID.empty (FixedBytes.ofNat 32 105) 5], ⟨[], rfl⟩,
        by simp [Msg.isQuery], by simp⟩
  have hphase : (answered 1 2).phase = .backfill := rfl
  exact ⟨hphase, (anchor_decided_by_sample hrun).1 (by rw [hphase]; decide)⟩

open Sample in
/-- Two nodes that were never asked answer the request of the current query, and the
engine takes their container as the anchor. -/
theorem anchor_decided_by_strangers :
    ∃ e, Run setup (fun _ => True) (fun _ _ => True) (Engine.new setup host 0) e ∧
      e.phase ≠ .pollAnchor ∧ e.back.anchorID = FixedBytes.ofNat 32 105 ∧
      ¬ AnchorVoted setup e := by
  refine ⟨answered 7 8, answered_run (asked_run fun _ => trivial) trivial trivial, by decide, rfl, ?_⟩
  rintro ⟨targets, since, voters, ⟨before, hasked⟩, -, hlen, hall⟩
  have htrans : (answered 7 8).transcript =
      [.pullQuery [node 1, node 2] 1 ID.empty 0,
        .chits (node 7) 1 ID.empty ID.empty (FixedBytes.ofNat 32 105) 5,
        .chits (node 8) 1 ID.empty ID.empty (FixedBytes.ofNat 32 105) 5,
        .get (node 1) 2 (FixedBytes.ofNat 32 105)] := rfl
  cases voters with
  | nil => exact absurd hlen (by decide)
  | cons n rest =>
    obtain ⟨hn, p, q, k, hm⟩ := hall n (by simp)
    -- a voter answered, so it is 7 or 8, and was asked, so it is 1 or 2
    have hquery : Msg.pullQuery targets (answered 7 8).boot.reqID ID.empty 0 ∈
        (answered 7 8).transcript := by
      rw [hasked]
      simp
    have hchit : Msg.chits n (answered 7 8).boot.reqID p q (answered 7 8).back.anchorID k ∈
        (answered 7 8).transcript := by
      rw [hasked]
      simp [hm]
    rw [htrans] at hquery hchit
    simp only [List.mem_cons, List.not_mem_nil, or_false, Msg.pullQuery.injEq, reduceCtorEq,
      Msg.chits.injEq] at hquery hchit
    obtain ⟨rfl, -⟩ := hquery
    have hne : ∀ x ∈ [node 1, node 2], x ≠ node 7 ∧ x ≠ node 8 := by decide
    rcases hchit with h | h | h
    · cases h
    · exact (hne n hn).1 h.1
    · exact (hne n hn).2 h.1

end Flatstate.Consensus
