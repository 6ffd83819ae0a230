import Flatstate.Tipbus.Bus

set_option autoImplicit false

/-!
# Tipbus: publishes that abort

A publish changes the mirror of the handshake state first and the environment in one
transaction after that.  When the transaction aborts, the environment is as it was and the
mirror is not: the next publish that commits writes the layer of the one that failed, or
leaves its number out.

Here is every sequence of publishes, each with the put at which its transaction aborts, if it
does, and when the mirror and the bus stay what the committed events say.
-/

namespace Flatstate.Tipbus

open Foundation Schema Capture

/-! ## Calls -/

/-- A call of the publisher. -/
inductive PublishCall where
  | block (b : Batch)
  | finalize (height : UInt64) (hash : Hash)
  | reset (preferred : List Batch)
  deriving DecidableEq

/-- The event a call publishes. -/
def PublishCall.event : PublishCall → Event
  | .block b => .block b
  | .finalize height hash => .finalize height hash
  | .reset preferred => .reset preferred

/-- The call on the bus; `cut` says where its transaction aborts. -/
def Bus.call (cut : Option Cut) (bus : Bus) : PublishCall → Except BusErr Unit × Bus
  | .block b => bus.publishBlock cut b
  | .finalize height hash => bus.publishFinalize cut height hash
  | .reset preferred => bus.publishReset cut preferred

/-- A publisher and the events it has committed. -/
structure Publisher where
  bus : Bus
  committed : List Event

/-- One call; its event is committed if it returns nil. -/
def Publisher.step (w : Publisher) (c : PublishCall × Option Cut) : Publisher :=
  match w.bus.call c.2 c.1 with
  | (.ok (), bus) => ⟨bus, w.committed ++ [c.1.event]⟩
  | (.error _, bus) => ⟨bus, w.committed⟩

/-- The publisher after some calls, from `OpenWriter` on. -/
def afterCalls (calls : List (PublishCall × Option Cut)) : Publisher :=
  calls.foldl Publisher.step ⟨openWriter, []⟩

theorem afterCalls_concat (calls : List (PublishCall × Option Cut)) (c : PublishCall × Option Cut) :
    afterCalls (calls ++ [c]) = (afterCalls calls).step c := by
  unfold afterCalls
  rw [List.foldl_append]
  rfl

/-- The bus is consistent: the mirror is what is committed, a poll from any cursor up to the
counter returns the events since, and the handshake is the fold of the events. -/
structure Consistent (w : Publisher) : Prop where
  mirror : w.bus.env.handshake = .ok (w.bus.finalized, w.bus.layers, w.bus.seq)
  polls : ∀ start, start ≤ w.bus.env.count →
    w.bus.env.poll start = .ok (w.committed.drop start, w.bus.env.count)
  folds : w.bus.env.handshake =
    .ok (lastFinalized w.committed, foldStack w.committed, w.committed.length)

/-! ## The mirror and the transaction -/

/-- The mirror a call sets before its transaction; none if the call is refused. -/
def Bus.mirrored (bus : Bus) : PublishCall → Option Bus
  | .block b => some { bus with layers := bus.layers ++ [b] }
  | .finalize height _ =>
    match bus.layers with
    | [] => none
    | l :: rest =>
      if l.block ≠ height then none else some { bus with layers := rest, finalized := height }
  | .reset preferred => some { bus with layers := preferred }

/-- No put of the transaction fails: it is not cut off, and both values are small enough. -/
def Bus.Commits (bus : Bus) (cut : Option Cut) (ev : Event) : Prop :=
  cut = none ∧ ev.encode.length < 2 ^ 32 ∧ (encodeState bus.finalized bus.layers).length < 2 ^ 32

/-- The call does no harm: it is refused before its transaction, or the transaction commits,
or it is a reset to the stack there is and aborts before the counter is moved. -/
def Bus.Harmless (bus : Bus) (cut : Option Cut) (c : PublishCall) : Prop :=
  ∀ bus', bus.mirrored c = some bus' →
    bus'.Commits cut c.event ∨ bus' = bus ∧ cut ≠ some .counter

theorem call_refused {bus : Bus} {c : PublishCall} (cut : Option Cut) (h : bus.mirrored c = none) :
    ∃ e, bus.call cut c = (.error e, bus) := by
  cases c with
  | block b => cases h
  | reset preferred => cases h
  | finalize height hash =>
    refine ⟨.notOldest height, ?_⟩
    unfold Bus.mirrored at h
    unfold Bus.call Bus.publishFinalize
    cases hl : bus.layers with
    | nil => rfl
    | cons l rest =>
      rw [hl] at h
      dsimp only at h ⊢
      split at h
      · rename_i hne
        rw [if_pos hne]
      · cases h

theorem call_mirrored {bus bus' : Bus} {c : PublishCall} (cut : Option Cut)
    (h : bus.mirrored c = some bus') : bus.call cut c = bus'.publish cut c.event.encode := by
  unfold Bus.mirrored at h
  cases c with
  | block _ | reset _ =>
    obtain rfl := Option.some.inj h
    rfl
  | finalize height hash =>
    unfold Bus.call Bus.publishFinalize
    cases hl : bus.layers with
    | nil => rw [hl] at h; cases h
    | cons l rest =>
      rw [hl] at h
      dsimp only at h ⊢
      split at h
      · cases h
      · rename_i heq
        obtain rfl := Option.some.inj h
        rw [if_neg heq]
        rfl

/-- The mirror moves as the event says; the environment and the counter stay. -/
theorem mirrored_eq {bus bus' : Bus} {c : PublishCall} (h : bus.mirrored c = some bus') :
    bus' = { bus with
      layers := c.event.fold bus.layers, finalized := c.event.raise bus.finalized } := by
  unfold Bus.mirrored at h
  cases c with
  | block _ | reset _ => exact (Option.some.inj h).symm
  | finalize height hash =>
    cases hl : bus.layers with
    | nil => rw [hl] at h; cases h
    | cons l rest =>
      rw [hl] at h
      dsimp only at h
      split at h
      · cases h
      · exact (Option.some.inj h).symm

/-- Only a reset leaves the mirror as it is. -/
theorem mirrored_self {bus : Bus} {c : PublishCall} (h : bus.mirrored c = some bus) :
    c = .reset bus.layers := by
  have hlayers : bus.layers = c.event.fold bus.layers := congrArg Bus.layers (mirrored_eq h)
  have hlen := congrArg List.length hlayers
  cases c with
  | block b =>
    rw [PublishCall.event, Event.fold, List.length_append, List.length_singleton] at hlen
    omega
  | finalize height hash =>
    rw [PublishCall.event, Event.fold, List.length_tail] at hlen
    have hnil : bus.layers = [] := List.length_eq_zero_iff.mp (by omega)
    unfold Bus.mirrored at h
    rw [hnil] at h
    cases h
  | reset preferred => exact congrArg PublishCall.reset hlayers.symm

theorem publish_commits {bus : Bus} {cut : Option Cut} {ev : Event} (h : bus.Commits cut ev) :
    bus.publish cut ev.encode = bus.publish none ev.encode ∧
      (bus.publish none ev.encode).1 = .ok () := by
  obtain ⟨rfl, hev, hst⟩ := h
  refine ⟨rfl, ?_⟩
  unfold Bus.publish
  simp only [reduceCtorEq, false_or, if_neg (Nat.not_le.mpr hev), if_neg (Nat.not_le.mpr hst),
    if_false]

/-- An abort leaves the environment alone, and of the mirror only the counter moves, when the
put of the counter is reached. -/
theorem publish_aborts {bus : Bus} {cut : Option Cut} {ev : Event} (h : ¬ bus.Commits cut ev) :
    ∃ seq, bus.publish cut ev.encode = (.error .txn, { bus with seq := seq }) ∧
      (cut ≠ some .counter → seq = bus.seq) ∧
      (cut = some .counter → ev.encode.length < 2 ^ 32 →
        (encodeState bus.finalized bus.layers).length < 2 ^ 32 → seq = bus.seq + 1) := by
  unfold Bus.publish
  dsimp only
  split
  · rename_i hev
    refine ⟨bus.seq, rfl, fun _ => rfl, ?_⟩
    rintro rfl hfits
    exact absurd hev (by simpa using hfits)
  · rename_i hev
    split
    · rename_i hst
      refine ⟨bus.seq, rfl, fun _ => rfl, ?_⟩
      rintro rfl - hfits
      exact absurd hst (by simpa using hfits)
    · rename_i hst
      split
      · rename_i hcut
        exact ⟨bus.seq + 1, rfl, fun hne => absurd hcut hne, fun _ _ _ => rfl⟩
      · rename_i hcut
        -- no abort point and no put too large: the transaction commits
        refine absurd ⟨?_, Nat.lt_of_not_le (fun hle => hev (.inr hle)),
          Nat.lt_of_not_le (fun hle => hst (.inr hle))⟩ h
        cases cut with
        | none => rfl
        | some cut =>
          cases cut with
          | event => exact absurd (Or.inl rfl) hev
          | state => exact absurd (Or.inl rfl) hst
          | counter => exact absurd rfl hcut

/-! ## One call -/

variable {w : Publisher}

theorem step_error {c : PublishCall × Option Cut} {e : BusErr} {bus : Bus}
    (h : w.bus.call c.2 c.1 = (.error e, bus)) : w.step c = ⟨bus, w.committed⟩ := by
  unfold Publisher.step
  rw [h]

theorem step_ok {c : PublishCall × Option Cut} {bus : Bus}
    (h : w.bus.call c.2 c.1 = (.ok (), bus)) : w.step c = ⟨bus, w.committed ++ [c.1.event]⟩ := by
  unfold Publisher.step
  rw [h]

/-- A consistent bus, as it is kept from call to call. -/
theorem Mirrors.consistent (h : Mirrors w.bus w.committed) : Consistent w := by
  have hcount : w.bus.env.count = w.committed.length := by
    unfold BusEnv.count
    rw [h.carries.seq]
    rfl
  refine ⟨?_, fun start hs => ?_, h.handshake⟩
  · rw [h.carries.handshake, h.carries.count]
  · rw [hcount] at hs ⊢
    exact h.carries.poll hs

/-- A harmless call keeps the bus consistent. -/
theorem Mirrors.step (h : Mirrors w.bus w.committed) {c : PublishCall × Option Cut}
    (hc : w.bus.Harmless c.2 c.1) : Mirrors (w.step c).bus (w.step c).committed := by
  cases hm : w.bus.mirrored c.1 with
  | none =>
    obtain ⟨e, hcall⟩ := call_refused c.2 hm
    rw [step_error hcall]
    exact h
  | some bus' =>
    have hcall := call_mirrored c.2 hm
    by_cases hcommits : bus'.Commits c.2 c.1.event
    · obtain ⟨hnone, hok⟩ := publish_commits hcommits
      have hpub := Prod.fst_eq_iff.mp hok
      rw [hnone, hpub] at hcall
      rw [step_ok hcall]
      rw [mirrored_eq hm] at hpub ⊢
      obtain ⟨hcar, hl, hf⟩ := h.carries.publish _ _ _ hpub
      exact h.next hcar hl hf
    · -- a reset to the stack there is, which aborts before the counter is moved
      obtain ⟨rfl, hcut⟩ := (hc bus' hm).resolve_left hcommits
      obtain ⟨seq, habort, hseq, -⟩ := publish_aborts hcommits
      rw [habort, hseq hcut] at hcall
      rw [step_error hcall]
      exact h

/-- A harmful call leaves the mirror and what is committed apart. -/
theorem Mirrors.step_harmful (h : Mirrors w.bus w.committed) {c : PublishCall × Option Cut}
    (hc : ¬ w.bus.Harmless c.2 c.1) : ¬ Consistent (w.step c) := by
  unfold Bus.Harmless at hc
  push Not at hc
  obtain ⟨bus', hm, hcommits, hharm⟩ := hc
  obtain ⟨seq, habort, -, hmoved⟩ := publish_aborts hcommits
  have hcall := call_mirrored c.2 hm
  rw [habort] at hcall
  rw [step_error hcall]
  intro hcons
  have hmirror := hcons.mirror
  have henv : bus'.env = w.bus.env := by rw [mirrored_eq hm]
  dsimp only at hmirror
  rw [henv, h.carries.handshake, ← h.carries.count] at hmirror
  obtain ⟨hfin, hrest⟩ := Prod.mk.inj (Except.ok.inj hmirror)
  obtain ⟨hlayers, hseq⟩ := Prod.mk.inj hrest
  -- the mirror is what it was, so the call was a reset to the stack there is
  have hbus : bus' = w.bus := by
    rw [mirrored_eq hm] at hfin hlayers ⊢
    dsimp only at hfin hlayers
    rw [← hfin, ← hlayers]
  subst hbus
  have hst := h.carries.stateFits
  have hev : c.1.event.encode.length < 2 ^ 32 := by
    rw [encodeState, List.length_append, length_beEncode] at hst
    rw [mirrored_self hm, PublishCall.event, Event.encode, List.length_cons]
    omega
  have hnext := hmoved (hharm rfl) hev hst
  omega

/-! ## Whole runs -/

/-- A failed publish leaves the bus consistent exactly as long as no publish transaction
aborts, a reset to the stack there is apart: after every call of a sequence the mirror is what
is committed, polls return the committed events and the handshake is their fold, if and only
if every call was harmless when it was made. -/
theorem bus_consistent_iff (calls : List (PublishCall × Option Cut)) :
    (∀ made, made <+: calls → Consistent (afterCalls made)) ↔
      ∀ made c, made ++ [c] <+: calls → (afterCalls made).bus.Harmless c.2 c.1 := by
  -- both directions carry the invariant along the calls made so far
  have hopened : Mirrors (afterCalls []).bus (afterCalls []).committed :=
    ⟨carries_openWriter, rfl, rfl⟩
  constructor
  · intro hall
    have hharmless : ∀ before c, before ++ [c] <+: calls →
        Mirrors (afterCalls before).bus (afterCalls before).committed →
        (afterCalls before).bus.Harmless c.2 c.1 := by
      intro before c hpre hbefore
      by_contra hharm
      refine hbefore.step_harmful hharm ?_
      rw [← afterCalls_concat]
      exact hall _ hpre
    have hinv : ∀ made, made <+: calls →
        Mirrors (afterCalls made).bus (afterCalls made).committed := by
      intro made
      induction made using List.reverseRecOn with
      | nil => exact fun _ => hopened
      | append_singleton before c ih =>
        intro hpre
        have hbefore := ih ((List.prefix_append before [c]).trans hpre)
        rw [afterCalls_concat]
        exact hbefore.step (hharmless before c hpre hbefore)
    intro made c hpre
    exact hharmless made c hpre (hinv made ((List.prefix_append made [c]).trans hpre))
  · intro hall made hpre
    have hinv : Mirrors (afterCalls made).bus (afterCalls made).committed := by
      induction made using List.reverseRecOn with
      | nil => exact hopened
      | append_singleton before c ih =>
        rw [afterCalls_concat]
        exact (ih ((List.prefix_append before [c]).trans hpre)).step (hall before c hpre)
    exact hinv.consistent

namespace Sample

/-- The publish of a block aborts at its first put. -/
def aborted : Publisher := afterCalls [(.block first, some .event)]

/-- The next publish commits. -/
def phantom : Publisher := afterCalls [(.block first, some .event), (.block second, none)]

/-- The same with an abort at the last put. -/
def gap : Publisher := afterCalls [(.block first, some .counter), (.block second, none)]

end Sample

open Sample in
/-- A block whose transaction aborts at the put of its event stays in the mirror as a phantom
layer, and the next publish commits it; one whose transaction aborts at the put of the counter
leaves a number without an event, at which every poll from before fails. -/
theorem failed_publish_damages_bus :
    (aborted.bus.layers = [first] ∧ aborted.bus.env.handshake = .ok (0, [], 0)) ∧
    (phantom.committed = [.block second] ∧
      phantom.bus.env.handshake = .ok (0, [first, second], 1)) ∧
    (gap.committed = [.block second] ∧ gap.bus.env.count = 2 ∧
      gap.bus.env.poll 0 = .error (.missingEvent 0)) ∧
    ¬ ∀ calls made, made <+: calls → Consistent (afterCalls made) := by
  refine ⟨by decide +kernel, by decide +kernel, by decide +kernel, fun hall => ?_⟩
  have hmirror := (hall [(.block first, some .event)] _ (List.prefix_refl _)).mirror
  exact absurd hmirror (by decide +kernel)

end Flatstate.Tipbus
