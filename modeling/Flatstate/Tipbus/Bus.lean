import Flatstate.Capture.Codec

set_option autoImplicit false

/-!
# Tipbus: the ephemeral event bus (`tipbus/tipbus.go`)

The writer publishes every change of the unfinalized stack as one event, and with
it the whole stack, in one transaction; readers take a handshake and then poll.

The bus environment holds three keyspaces: the event counter, the handshake state
and the events by number.  A keyspace is a field here.  LMDB refuses values of
`2 ^ 32` bytes and more.
-/

namespace Flatstate.Tipbus

open Foundation Schema Capture

/-- The bus environment; `seq` is missing until a writer has opened it. -/
structure BusEnv where
  seq : Option Nat
  state : Bytes
  events : Nat → Option Bytes

/-- One published entry. -/
inductive Event where
  /-- new unfinalized block on the preferred chain -/
  | block (batch : Batch)
  /-- block accepted -/
  | finalize (height : UInt64) (hash : Hash)
  /-- preference reset: the full new unfinalized stack, oldest first -/
  | reset (batches : List Batch)
  deriving DecidableEq

/-- What the bus functions fail with. -/
inductive BusErr where
  /-- "tipbus: finalize %d does not match oldest layer" -/
  | notOldest (height : UInt64)
  /-- the publish transaction failed -/
  | txn
  /-- "tipbus: no writer has initialized this bus" -/
  | uninitialized
  /-- "tipbus: truncated state" -/
  | truncatedState
  /-- "tipbus: empty event" -/
  | emptyEvent
  /-- "tipbus: bad finalize event" -/
  | badFinalize
  /-- "tipbus: bad reset event" -/
  | badReset
  /-- "tipbus: unknown event kind %d" -/
  | unknownKind (k : UInt8)
  /-- no event under a number below the counter -/
  | missingEvent (n : Nat)
  /-- a batch does not decode -/
  | badBatch (e : DecodeErr)
  deriving DecidableEq

/-! ## Encodings -/

/-- One batch with its length. -/
def encodeSized (b : Batch) : Bytes := beEncode 4 (b.encode []).length ++ b.encode []

/-- A list of batches with its length. -/
def encodeStack (bs : List Batch) : Bytes := beEncode 4 bs.length ++ bs.flatMap encodeSized

/-- The handshake state. -/
def encodeState (finalized : UInt64) (layers : List Batch) : Bytes :=
  beEncode 8 finalized.toNat ++ encodeStack layers

/-- The payload of an event. -/
def Event.encode : Event → Bytes
  | .block b => b.encode [1]
  | .finalize height hash => 2 :: (beEncode 8 height.toNat ++ hash.1)
  | .reset bs => 3 :: encodeStack bs

/-- `n` sized batches; `e` is what a short input fails with. -/
def decodeSized (e : BusErr) : Nat → Bytes → Except BusErr (List Batch)
  | 0, _ => .ok []
  | n + 1, v =>
    if v.length < 4 then .error e
    else
      let l := beDecode (v.take 4)
      if v.length < 4 + l then .error e
      else
        match decode ((v.drop 4).take l) with
        | .error e => .error (.badBatch e)
        | .ok b =>
          match decodeSized e n (v.drop (4 + l)) with
          | .error e => .error e
          | .ok bs => .ok (b :: bs)

/-- `decodeEvent`. -/
def decodeEvent : Bytes → Except BusErr Event
  | [] => .error .emptyEvent
  | kind :: body =>
    if kind = 1 then
      match decode body with
      | .ok b => .ok (.block b)
      | .error e => .error (.badBatch e)
    else if kind = 2 then
      if h : body.length = 40 then
        .ok (.finalize (UInt64.ofNat (beDecode (body.take 8))) ⟨body.drop 8, by simp [h]⟩)
      else .error .badFinalize
    else if kind = 3 then
      if body.length < 4 then .error .badReset
      else
        match decodeSized .badReset (beDecode (body.take 4)) (body.drop 4) with
        | .ok bs => .ok (.reset bs)
        | .error e => .error e
    else .error (.unknownKind kind)

/-! ## The publisher -/

/-- The writer's handle: the environment and the mirror of the handshake state. -/
structure Bus where
  env : BusEnv
  seq : Nat
  finalized : UInt64
  layers : List Batch

/-- `OpenWriter`: truncate the bus. -/
def openWriter : Bus where
  env := ⟨some 0, encodeState 0 [], fun _ => none⟩
  seq := 0
  finalized := 0
  layers := []

/-- Where a publish transaction fails: at the put of the event, at the put of the
handshake state, or later, when the counter of the mirror has moved already. -/
inductive Cut where
  | event
  | state
  | counter
  deriving DecidableEq

/-- `Bus.publish`; `cut` says where the transaction fails, if it does. -/
def Bus.publish (cut : Option Cut) (bus : Bus) (payload : Bytes) : Except BusErr Unit × Bus :=
  let state := encodeState bus.finalized bus.layers
  if cut = some .event ∨ 2 ^ 32 ≤ payload.length then (.error .txn, bus)
  else if cut = some .state ∨ 2 ^ 32 ≤ state.length then (.error .txn, bus)
  else
    let moved := { bus with seq := bus.seq + 1 }
    if cut = some .counter then (.error .txn, moved)
    else
      (.ok (), { moved with
        env := ⟨some (bus.seq + 1), state, Function.update bus.env.events bus.seq (some payload)⟩ })

/-- `Bus.PublishBlock`. -/
def Bus.publishBlock (cut : Option Cut) (bus : Bus) (b : Batch) : Except BusErr Unit × Bus :=
  ({ bus with layers := bus.layers ++ [b] }).publish cut (Event.block b).encode

/-- `Bus.PublishFinalize`. -/
def Bus.publishFinalize (cut : Option Cut) (bus : Bus) (height : UInt64) (hash : Hash) :
    Except BusErr Unit × Bus :=
  match bus.layers with
  | [] => (.error (.notOldest height), bus)
  | l :: rest =>
    if l.block ≠ height then (.error (.notOldest height), bus)
    else
      ({ bus with layers := rest, finalized := height }).publish cut
        (Event.finalize height hash).encode

/-- `Bus.PublishReset`. -/
def Bus.publishReset (cut : Option Cut) (bus : Bus) (preferred : List Batch) :
    Except BusErr Unit × Bus :=
  ({ bus with layers := preferred }).publish cut (Event.reset preferred).encode

/-! ## The subscriber -/

/-- `Bus.Seq`. -/
def BusEnv.count (env : BusEnv) : Nat := env.seq.getD 0

/-- `Bus.Handshake`: the finalized height, the unfinalized layers and the number to poll
from, all of one snapshot. -/
def BusEnv.handshake (env : BusEnv) : Except BusErr (UInt64 × List Batch × Nat) :=
  match env.seq with
  | none => .error .uninitialized
  | some seq =>
    let v := env.state
    if v.length < 12 then .error .truncatedState
    else
      match decodeSized .truncatedState (beDecode ((v.drop 8).take 4)) (v.drop 12) with
      | .error e => .error e
      | .ok layers => .ok (UInt64.ofNat (beDecode (v.take 8)), layers, seq)

/-- The loop of `Poll` over the next `n` events. -/
def BusEnv.pollLoop (env : BusEnv) : Nat → Nat → Except BusErr (List Event)
  | 0, _ => .ok []
  | n + 1, next =>
    match env.events next with
    | none => .error (.missingEvent next)
    | some v =>
      match decodeEvent v with
      | .error e => .error e
      | .ok ev =>
        match env.pollLoop n (next + 1) with
        | .error e => .error e
        | .ok evs => .ok (ev :: evs)

/-- `Bus.Poll`: the events from `start` on and the new cursor. -/
def BusEnv.poll (env : BusEnv) (start : Nat) : Except BusErr (List Event × Nat) :=
  match env.seq with
  | none => .ok ([], start)
  | some cur =>
    match env.pollLoop (cur - start) start with
    | .error e => .error e
    | .ok evs => .ok (evs, start + (cur - start))

/-! ## Round trips -/

theorem beDecode_beEncode4 {n : Nat} (h : n < 2 ^ 32) : beDecode (beEncode 4 n) = n :=
  beDecode_beEncode_of_lt (by rw [show (256 : Nat) ^ 4 = 2 ^ 32 by norm_num]; exact h)

theorem length_flatMap_sized (bs : List Batch) :
    4 * bs.length ≤ (bs.flatMap encodeSized).length ∧
      ∀ b ∈ bs, (b.encode []).length ≤ (bs.flatMap encodeSized).length := by
  induction bs with
  | nil => simp
  | cons b bs ih =>
    rw [List.flatMap_cons, List.length_append, encodeSized, List.length_append, length_beEncode]
    refine ⟨by rw [List.length_cons]; omega, fun b' hb' => ?_⟩
    rcases List.mem_cons.mp hb' with rfl | hb'
    · omega
    · have := ih.2 b' hb'
      omega

/-- Sized batches read back. -/
theorem decodeSized_flatMap (e : BusErr) {bs : List Batch}
    (h : ∀ b ∈ bs, (b.encode []).length < 2 ^ 32) (r : Bytes) :
    decodeSized e bs.length (bs.flatMap encodeSized ++ r) = .ok bs := by
  induction bs with
  | nil => rfl
  | cons b bs ih =>
    have hb := h b (by simp)
    have hbs := ih (fun b' hb' => h b' (by simp [hb']))
    have hl4 : (beEncode 4 (b.encode []).length).length = 4 := length_beEncode _ _
    have hv : (b :: bs).flatMap encodeSized ++ r =
        beEncode 4 (b.encode []).length ++ (b.encode [] ++ (bs.flatMap encodeSized ++ r)) := by
      simp [encodeSized, List.append_assoc]
    have hdrop : ((b :: bs).flatMap encodeSized ++ r).drop (4 + (b.encode []).length) =
        bs.flatMap encodeSized ++ r := by
      rw [hv, ← List.append_assoc, List.drop_left' (by rw [List.length_append, hl4])]
    have hlen : ((b :: bs).flatMap encodeSized ++ r).length =
        4 + (b.encode []).length + (bs.flatMap encodeSized ++ r).length := by
      rw [hv]
      simp only [List.length_append, hl4]
      omega
    rw [List.length_cons, decodeSized, if_neg (by omega)]
    have htake : beDecode (((b :: bs).flatMap encodeSized ++ r).take 4) = (b.encode []).length := by
      rw [hv, List.take_left' hl4, beDecode_beEncode4 hb]
    have hbody : (((b :: bs).flatMap encodeSized ++ r).drop 4).take (b.encode []).length =
        b.encode [] := by
      rw [hv, List.drop_left' hl4, List.take_left' rfl]
    simp only [htake]
    rw [if_neg (by omega), hbody, decode_encode_of_encodable (encodable_of_length hb)]
    simp only [hdrop, hbs]

/-- A stack small enough for one value reads back. -/
theorem decodeSized_stack (e : BusErr) {bs : List Batch} (h : (encodeStack bs).length < 2 ^ 32) :
    4 ≤ (encodeStack bs).length ∧
      decodeSized e (beDecode ((encodeStack bs).take 4)) ((encodeStack bs).drop 4) = .ok bs := by
  have hl4 : (beEncode 4 bs.length).length = 4 := length_beEncode _ _
  have hlen : (encodeStack bs).length = 4 + (bs.flatMap encodeSized).length := by
    rw [encodeStack, List.length_append, hl4]
  obtain ⟨hn, hb⟩ := length_flatMap_sized bs
  refine ⟨by omega, ?_⟩
  rw [encodeStack, List.take_left' hl4, List.drop_left' hl4, beDecode_beEncode4 (by omega)]
  have hfits : ∀ b ∈ bs, (b.encode []).length < 2 ^ 32 := fun b hb' => by
    have := hb b hb'
    omega
  have hdec := decodeSized_flatMap e hfits []
  rwa [List.append_nil] at hdec

/-- Every published event reads back. -/
theorem decodeEvent_encode {ev : Event} (h : ev.encode.length < 2 ^ 32) :
    decodeEvent ev.encode = .ok ev := by
  cases ev with
  | block b =>
    have henc : (Event.block b).encode = 1 :: b.encode [] := by
      simp [Event.encode, Batch.encode]
    rw [henc, List.length_cons] at h
    have hdec := decode_encode_of_encodable (encodable_of_length (b := b) (by omega))
    rw [henc]
    simp only [decodeEvent, if_true, hdec]
  | finalize height hash =>
    have hl8 : (beEncode 8 height.toNat).length = 8 := length_beEncode _ _
    have hlen : (beEncode 8 height.toNat ++ hash.1).length = 40 := by
      rw [List.length_append, hl8, hash.2]
    have h2 : ¬ ((2 : UInt8) = 1) := by decide
    simp only [Event.encode, decodeEvent, if_neg h2, if_true, dif_pos hlen]
    have hheight : UInt64.ofNat (beDecode ((beEncode 8 height.toNat ++ hash.1).take 8)) = height := by
      rw [List.take_left' hl8, beDecode_beEncode_of_lt (uint64_toNat_lt _), UInt64.ofNat_toNat]
    have hhash : (beEncode 8 height.toNat ++ hash.1).drop 8 = hash.1 := List.drop_left' hl8
    simp only [hheight, hhash]
  | reset bs =>
    have hst : (encodeStack bs).length < 2 ^ 32 := by
      rw [Event.encode, List.length_cons] at h
      omega
    obtain ⟨h4, hdec⟩ := decodeSized_stack .badReset hst
    have h1 : ¬ ((3 : UInt8) = 1) := by decide
    have h2 : ¬ ((3 : UInt8) = 2) := by decide
    simp only [Event.encode, decodeEvent, if_neg h1, if_neg h2, if_true,
      if_neg (Nat.not_lt.mpr h4), hdec]

/-! ## What the bus carries -/

/-- The bus has published the events `evs`, and its handshake state is its mirror. -/
structure Carries (bus : Bus) (evs : List Event) : Prop where
  seq : bus.env.seq = some evs.length
  count : bus.seq = evs.length
  events : ∀ n, bus.env.events n = (evs[n]?).map Event.encode
  state : bus.env.state = encodeState bus.finalized bus.layers
  /-- what was published is small enough for LMDB -/
  stateFits : (encodeState bus.finalized bus.layers).length < 2 ^ 32
  eventFits : ∀ ev ∈ evs, ev.encode.length < 2 ^ 32

theorem carries_openWriter : Carries openWriter [] := by
  refine ⟨rfl, rfl, fun n => ?_, rfl, ?_, by simp⟩
  · simp [openWriter]
  · decide

/-- A publish that commits adds its event. -/
theorem Carries.publish {bus : Bus} {evs : List Event} (h : Carries bus evs) (layers : List Batch)
    (finalized : UInt64) (ev : Event) {bus' : Bus}
    (hp : ({ bus with layers := layers, finalized := finalized }).publish none ev.encode =
      (.ok (), bus')) :
    Carries bus' (evs ++ [ev]) ∧ bus'.layers = layers ∧ bus'.finalized = finalized := by
  simp only [Bus.publish, reduceCtorEq, false_or] at hp
  split at hp
  · simp at hp
  · rename_i hev
    split at hp
    · simp at hp
    · rename_i hst
      obtain ⟨-, rfl⟩ := Prod.mk.inj hp
      refine ⟨⟨?_, ?_, ?_, rfl, Nat.lt_of_not_le hst, ?_⟩, rfl, rfl⟩
      · simp [h.count]
      · simp [h.count]
      · intro n
        dsimp only
        rw [h.count]
        rcases Nat.lt_trichotomy n evs.length with hlt | rfl | hgt
        · rw [Function.update_of_ne (Nat.ne_of_lt hlt), h.events, List.getElem?_append_left hlt]
        · rw [Function.update_self, List.getElem?_concat_length]
          rfl
        · rw [Function.update_of_ne (Nat.ne_of_gt hgt), h.events,
            List.getElem?_eq_none (Nat.le_of_lt hgt), List.getElem?_eq_none (by simp; omega)]
      · intro ev' hev'
        rcases List.mem_append.mp hev' with hm | hm
        · exact h.eventFits ev' hm
        · rw [List.mem_singleton.mp hm]
          exact Nat.lt_of_not_le hev

theorem Carries.publishBlock {bus bus' : Bus} {evs : List Event} (h : Carries bus evs) {b : Batch}
    (hp : bus.publishBlock none b = (.ok (), bus')) :
    Carries bus' (evs ++ [.block b]) ∧ bus'.layers = bus.layers ++ [b] ∧
      bus'.finalized = bus.finalized :=
  h.publish (bus.layers ++ [b]) bus.finalized (.block b) hp

theorem Carries.publishReset {bus bus' : Bus} {evs : List Event} (h : Carries bus evs)
    {preferred : List Batch} (hp : bus.publishReset none preferred = (.ok (), bus')) :
    Carries bus' (evs ++ [.reset preferred]) ∧ bus'.layers = preferred ∧
      bus'.finalized = bus.finalized :=
  h.publish preferred bus.finalized (.reset preferred) hp

theorem Carries.publishFinalize {bus bus' : Bus} {evs : List Event} (h : Carries bus evs)
    {height : UInt64} {hash : Hash} (hp : bus.publishFinalize none height hash = (.ok (), bus')) :
    Carries bus' (evs ++ [.finalize height hash]) ∧ bus'.layers = bus.layers.tail ∧
      bus'.finalized = height := by
  rw [Bus.publishFinalize] at hp
  cases hl : bus.layers with
  | nil => simp [hl] at hp
  | cons l rest =>
    simp only [hl] at hp
    split at hp
    · simp at hp
    · exact h.publish rest height (.finalize height hash) hp

/-- The handshake is the mirror and the number of events published. -/
theorem Carries.handshake {bus : Bus} {evs : List Event} (h : Carries bus evs) :
    bus.env.handshake = .ok (bus.finalized, bus.layers, evs.length) := by
  have hl8 : (beEncode 8 bus.finalized.toNat).length = 8 := length_beEncode _ _
  have hfits := h.stateFits
  have hlen : (encodeState bus.finalized bus.layers).length = 8 + (encodeStack bus.layers).length := by
    rw [encodeState, List.length_append, hl8]
  have hst : (encodeStack bus.layers).length < 2 ^ 32 := by omega
  obtain ⟨h4, hdec⟩ := decodeSized_stack .truncatedState hst
  have hdrop8 : (encodeState bus.finalized bus.layers).drop 8 = encodeStack bus.layers := by
    rw [encodeState, List.drop_left' hl8]
  have hdrop12 : (encodeState bus.finalized bus.layers).drop 12 = (encodeStack bus.layers).drop 4 := by
    rw [← hdrop8, List.drop_drop]
  have htake : (encodeState bus.finalized bus.layers).take 8 = beEncode 8 bus.finalized.toNat := by
    rw [encodeState, List.take_left' hl8]
  simp only [BusEnv.handshake, h.seq, h.state]
  rw [if_neg (by omega), hdrop8, hdrop12, hdec, htake,
    beDecode_beEncode_of_lt (uint64_toNat_lt _), UInt64.ofNat_toNat]

theorem Carries.pollLoop {bus : Bus} {evs : List Event} (h : Carries bus evs) {n start : Nat}
    (hn : start + n ≤ evs.length) :
    bus.env.pollLoop n start = .ok ((evs.drop start).take n) := by
  induction n generalizing start with
  | zero => simp [BusEnv.pollLoop]
  | succ n ih =>
    have hlt : start < evs.length := by omega
    have hev : evs[start]? = some evs[start] := List.getElem?_eq_getElem hlt
    have hdec := decodeEvent_encode (h.eventFits evs[start] (List.getElem_mem hlt))
    have hle : start + 1 + n ≤ evs.length := by omega
    have hrest := ih hle
    rw [BusEnv.pollLoop, h.events, hev, Option.map_some]
    simp only [hdec, hrest]
    rw [List.drop_eq_getElem_cons hlt, List.take_succ_cons]

/-- A poll returns exactly the events published since. -/
theorem Carries.poll {bus : Bus} {evs : List Event} (h : Carries bus evs) {start : Nat}
    (hs : start ≤ evs.length) : bus.env.poll start = .ok (evs.drop start, evs.length) := by
  have hle : start + (evs.length - start) ≤ evs.length := by omega
  have hloop := h.pollLoop hle
  have htake : (evs.drop start).take (evs.length - start) = evs.drop start := by
    rw [List.take_of_length_le]
    simp
  rw [BusEnv.poll, h.seq]
  simp only [hloop, htake]
  rw [Nat.add_sub_cancel' hs]

/-! ## Whole runs of a writer -/

/-- What an event does to the unfinalized stack. -/
def Event.fold (stack : List Batch) : Event → List Batch
  | .block b => stack ++ [b]
  | .finalize _ _ => stack.tail
  | .reset bs => bs

/-- The stack after some events. -/
def foldStack (evs : List Event) : List Batch := evs.foldl Event.fold []

/-- The finalized height an event leaves. -/
def Event.raise (height : UInt64) : Event → UInt64
  | .finalize h _ => h
  | _ => height

/-- The height of the last finalize event, 0 before the first. -/
def lastFinalized (evs : List Event) : UInt64 := evs.foldl Event.raise 0

/-- A writer's lifetime: publishes that succeed, from `OpenWriter` on, and the events they
published. -/
inductive Publishes : Bus → List Event → Prop where
  | opened : Publishes openWriter []
  | block {bus : Bus} {evs : List Event} (h : Publishes bus evs) (b : Batch)
      (hok : (bus.publishBlock none b).1 = .ok ()) :
      Publishes (bus.publishBlock none b).2 (evs ++ [.block b])
  | finalize {bus : Bus} {evs : List Event} (h : Publishes bus evs) (height : UInt64)
      (hash : Hash) (hok : (bus.publishFinalize none height hash).1 = .ok ()) :
      Publishes (bus.publishFinalize none height hash).2 (evs ++ [.finalize height hash])
  | reset {bus : Bus} {evs : List Event} (h : Publishes bus evs) (preferred : List Batch)
      (hok : (bus.publishReset none preferred).1 = .ok ()) :
      Publishes (bus.publishReset none preferred).2 (evs ++ [.reset preferred])

/-- The events published, and the mirror as their fold. -/
structure Mirrors (bus : Bus) (evs : List Event) : Prop where
  carries : Carries bus evs
  layers : bus.layers = foldStack evs
  finalized : bus.finalized = lastFinalized evs

theorem Mirrors.handshake {bus : Bus} {evs : List Event} (h : Mirrors bus evs) :
    bus.env.handshake = .ok (lastFinalized evs, foldStack evs, evs.length) := by
  rw [h.carries.handshake, h.finalized, h.layers]

theorem foldStack_concat (evs : List Event) (ev : Event) :
    foldStack (evs ++ [ev]) = ev.fold (foldStack evs) := by
  rw [foldStack, List.foldl_append]
  rfl

theorem lastFinalized_concat (evs : List Event) (ev : Event) :
    lastFinalized (evs ++ [ev]) = ev.raise (lastFinalized evs) := by
  rw [lastFinalized, List.foldl_append]
  rfl

/-- One event more. -/
theorem Mirrors.next {bus bus' : Bus} {evs : List Event} {ev : Event} (h : Mirrors bus evs)
    (hc : Carries bus' (evs ++ [ev])) (hl : bus'.layers = ev.fold bus.layers)
    (hf : bus'.finalized = ev.raise bus.finalized) : Mirrors bus' (evs ++ [ev]) := by
  refine ⟨hc, ?_, ?_⟩
  · rw [hl, h.layers, foldStack_concat]
  · rw [hf, h.finalized, lastFinalized_concat]

theorem Publishes.mirrors {bus : Bus} {evs : List Event} (h : Publishes bus evs) :
    Mirrors bus evs := by
  induction h with
  | opened => exact ⟨carries_openWriter, rfl, rfl⟩
  | block _ b hok ih =>
    obtain ⟨hc, hl, hf⟩ := ih.carries.publishBlock (Prod.fst_eq_iff.mp hok)
    exact ih.next hc hl hf
  | finalize _ height hash hok ih =>
    obtain ⟨hc, hl, hf⟩ := ih.carries.publishFinalize (Prod.fst_eq_iff.mp hok)
    exact ih.next hc hl hf
  | reset _ preferred hok ih =>
    obtain ⟨hc, hl, hf⟩ := ih.carries.publishReset (Prod.fst_eq_iff.mp hok)
    exact ih.next hc hl hf

/-- Every moment of a run is a run. -/
theorem Publishes.before {bus : Bus} {evs : List Event} (h : Publishes bus evs) {k : Nat}
    (hk : k ≤ evs.length) : ∃ bus', Publishes bus' (evs.take k) := by
  induction h with
  | opened => exact ⟨openWriter, by rw [List.take_nil]; exact .opened⟩
  | block hrun b hok ih | finalize hrun height hash hok ih | reset hrun preferred hok ih =>
    rw [List.length_append, List.length_singleton] at hk
    rcases Nat.lt_or_ge k (_ + 1) with hlt | hge
    · rw [List.take_append_of_le_length (Nat.le_of_lt_succ hlt)]
      exact ih (Nat.le_of_lt_succ hlt)
    · rw [List.take_of_length_le (by rw [List.length_append, List.length_singleton]; exact hge)]
      exact ⟨_, by constructor <;> assumption⟩

/-- The bus delivers what was published, and a handshake is a consistent cut: at any moment
a poll returns exactly the events since its cursor; the handshake is the number of events
with the fold of all of them; every moment `k` of the run has its handshake, and the events
polled later, on top of it, give the stack that all events give. -/
theorem bus_delivers_published {bus : Bus} {evs : List Event} (h : Publishes bus evs) :
    bus.env.count = evs.length ∧
    (∀ start, start ≤ evs.length → bus.env.poll start = .ok (evs.drop start, evs.length)) ∧
    bus.env.handshake = .ok (lastFinalized evs, foldStack evs, evs.length) ∧
    ∀ k, k ≤ evs.length → (∃ busK, Publishes busK (evs.take k)) ∧
      ∀ busK, Publishes busK (evs.take k) →
        busK.env.handshake = .ok (lastFinalized (evs.take k), foldStack (evs.take k), k) ∧
        ∃ later, bus.env.poll k = .ok (later, evs.length) ∧
          later.foldl Event.fold (foldStack (evs.take k)) = foldStack evs := by
  have hm := h.mirrors
  refine ⟨by rw [BusEnv.count, hm.carries.seq]; rfl, fun start => hm.carries.poll, hm.handshake, ?_⟩
  intro k hk
  refine ⟨h.before hk, fun busK hrun => ⟨?_, evs.drop k, hm.carries.poll hk, ?_⟩⟩
  · have hhand := hrun.mirrors.handshake
    rwa [List.length_take, Nat.min_eq_left hk] at hhand
  · rw [foldStack, ← List.foldl_append, List.take_append_drop]
    rfl

namespace Sample

def batch (block : UInt64) (hash : Hash) (parent : Hash) : Batch :=
  ⟨block, hash, parent, 1000, [.destruct (FixedBytes.zero 20)]⟩

def hashOf (b : UInt8) : Hash := ⟨List.replicate 32 b, by simp⟩

def first : Batch := batch 6 (hashOf 6) (hashOf 5)

def second : Batch := batch 7 (hashOf 7) (hashOf 6)

def other : Batch := batch 7 (hashOf 8) (hashOf 6)

/-- The bus after two blocks, a finalization and a reset. -/
def published : Bus :=
  ((((openWriter.publishBlock none first).2.publishBlock none second).2.publishFinalize none 6
    (hashOf 6)).2.publishReset none [other]).2

theorem published_run : Publishes published
    [.block first, .block second, .finalize 6 (hashOf 6), .reset [other]] :=
  (((Publishes.opened.block first (by decide +kernel)).block second (by decide +kernel)).finalize 6
    (hashOf 6) (by decide +kernel)).reset [other] (by decide +kernel)

end Sample

open Sample in
/-- A reader that shakes hands after the first block and polls at the end has the stack the
reset published. -/
theorem bus_delivers_published_sample :
    published.env.poll 1 = .ok ([.block second, .finalize 6 (hashOf 6), .reset [other]], 4) ∧
    published.env.handshake = .ok (6, [other], 4) := by
  obtain ⟨-, hpoll, hhand, -⟩ := bus_delivers_published published_run
  exact ⟨hpoll 1 (by decide), hhand⟩

end Flatstate.Tipbus
