import Flatstate.Capture.Batch

set_option autoImplicit false

/-!
# Capture: the batch encoding (`Batch.Encode`, `Decode`)

The encoding of a batch is the diff row of the store and the payload of a bus
event.  A batch is a fixed header, a 4-byte op count and the ops, each a kind
byte and a layout that depends on it.

`reader` in the source carries a sticky error: the first failing read sets it and
every later read is a no-op.  Nothing it returns after that is used, so the first
error is the outcome of the whole decode, and a read here is a function that
either fails or hands back the value and the remaining bytes.
-/

namespace Flatstate.Capture

open Foundation Schema

/-! ## Encode -/

/-- The wire kind of an op. -/
def Op.kind : Op → UInt8
  | .account _ _ => 1
  | .slot _ _ _ => 2
  | .deleteSlot _ _ => 3
  | .destruct _ => 4
  | .code _ _ => 5

/-- The bytes of an op after its kind. -/
def Op.body : Op → Bytes
  | .account a acct => a.1 ++ encodeAccount [] acct
  | .slot a s v => a.1 ++ s.1 ++ v.1
  | .deleteSlot a s => a.1 ++ s.1
  | .destruct a => a.1
  -- `uint32(len(op.Code))`: the low four bytes of the length
  | .code h c => h.1 ++ beEncode 4 c.length ++ c

def Op.encode (op : Op) : Bytes := op.kind :: op.body

/-- The bytes before the ops. -/
def Batch.header (b : Batch) : Bytes :=
  beEncode 8 b.block.toNat ++ b.hash.1 ++ b.parent.1 ++ beEncode 8 b.time.toNat ++
    beEncode 4 b.ops.length

/-- `Batch.Encode`: append the batch encoding to `dst`. -/
def Batch.encode (b : Batch) (dst : Bytes) : Bytes := dst ++ b.header ++ b.ops.flatMap Op.encode

/-! ## Decode -/

/-- Why a decode failed. -/
inductive DecodeErr where
  /-- "capture: truncated batch" -/
  | truncated
  /-- "capture: unknown op kind %d" -/
  | unknownKind (kind : UInt8)
  /-- "capture: %d trailing bytes" -/
  | trailing (n : Nat)
  /-- the account encoding has the wrong length -/
  | account (n : Nat)
  deriving DecidableEq

/-- A read: consume a prefix, hand back the rest. -/
abbrev Read (α : Type) := Bytes → Except DecodeErr (α × Bytes)

/-- `reader.take`. -/
def take (n : Nat) : Read Bytes := fun b =>
  if b.length < n then .error .truncated else .ok (b.take n, b.drop n)

/-- `reader.u8`. -/
def readU8 : Read UInt8
  | [] => .error .truncated
  | x :: b => .ok (x, b)

/-- `reader.u32`. -/
def readU32 : Read Nat := fun b =>
  match take 4 b with
  | .error e => .error e
  | .ok (v, r) => .ok (beDecode v, r)

/-- `reader.u64`. -/
def readU64 : Read UInt64 := fun b =>
  match take 8 b with
  | .error e => .error e
  | .ok (v, r) => .ok (UInt64.ofNat (beDecode v), r)

/-- `reader.bytes` into a fixed array. -/
def readFixed (n : Nat) : Read (FixedBytes n) := fun b =>
  if h : b.length < n then .error .truncated
  else .ok (⟨b.take n, by simp; omega⟩, b.drop n)

/-- One op. -/
def decodeOp : Read Op := fun b => do
  let (kind, b) ← readU8 b
  if kind = 1 then
    let (a, b) ← readFixed 20 b
    let (enc, b) ← take accountSize b
    match decodeAccount enc with
    | .ok acct => .ok (.account a acct, b)
    | .error n => .error (.account n)
  else if kind = 2 then
    let (a, b) ← readFixed 20 b
    let (s, b) ← readFixed 32 b
    let (v, b) ← readFixed 32 b
    .ok (.slot a s v, b)
  else if kind = 3 then
    let (a, b) ← readFixed 20 b
    let (s, b) ← readFixed 32 b
    .ok (.deleteSlot a s, b)
  else if kind = 4 then
    let (a, b) ← readFixed 20 b
    .ok (.destruct a, b)
  else if kind = 5 then
    let (h, b) ← readFixed 32 b
    let (cl, b) ← readU32 b
    let (c, b) ← take cl b
    .ok (.code h c, b)
  else .error (.unknownKind kind)

/-- `n` ops. -/
def decodeOps : Nat → Read (List Op)
  | 0, b => .ok ([], b)
  | n + 1, b => do
    let (op, b) ← decodeOp b
    let (ops, b) ← decodeOps n b
    .ok (op :: ops, b)

/-- `Decode`. -/
def decode (data : Bytes) : Except DecodeErr Batch := do
  let (block, b) ← readU64 data
  let (hash, b) ← readFixed 32 b
  let (parent, b) ← readFixed 32 b
  let (time, b) ← readU64 b
  let (n, b) ← readU32 b
  let (ops, b) ← decodeOps n b
  if b.length ≠ 0 then .error (.trailing b.length)
  else .ok { block, hash, parent, time, ops }

/-! ## Reading back what was written -/

theorem take_append {x : Bytes} {n : Nat} (h : x.length = n) (r : Bytes) :
    take n (x ++ r) = .ok (x, r) := by
  rw [take, if_neg (by rw [List.length_append]; omega), List.take_left' h, List.drop_left' h]

theorem readFixed_append {n : Nat} (x : FixedBytes n) (r : Bytes) :
    readFixed n (x.1 ++ r) = .ok (x, r) := by
  have hx := x.2
  rw [readFixed, dif_neg (by rw [List.length_append]; omega)]
  congr 2
  · exact Subtype.ext (List.take_left' hx)
  · exact List.drop_left' hx

theorem readU32_append {n : Nat} (h : n < 2 ^ 32) (r : Bytes) :
    readU32 (beEncode 4 n ++ r) = .ok (n, r) := by
  have hpow : (256 : Nat) ^ 4 = 2 ^ 32 := by norm_num
  have hn : beDecode (beEncode 4 n) = n := beDecode_beEncode_of_lt (by rw [hpow]; exact h)
  rw [readU32, take_append (length_beEncode _ _)]
  simp only [hn]

theorem readU64_append (n : UInt64) (r : Bytes) :
    readU64 (beEncode 8 n.toNat ++ r) = .ok (n, r) := by
  rw [readU64, take_append (length_beEncode _ _)]
  simp only [beDecode_beEncode_of_lt (uint64_toNat_lt _), UInt64.ofNat_toNat]

/-- The length fields of the encoding are 32 bits wide. -/
def Op.Encodable : Op → Prop
  | .code _ c => c.length < 2 ^ 32
  | _ => True

/-- The batch fits its own length fields.  LMDB refuses values of `2 ^ 32` bytes
and more, so that every batch the store commits is one. -/
def Batch.Encodable (b : Batch) : Prop :=
  b.ops.length < 2 ^ 32 ∧ ∀ op ∈ b.ops, op.Encodable

theorem decodeOp_encode {op : Op} (h : op.Encodable) (r : Bytes) :
    decodeOp (op.encode ++ r) = .ok (op, r) := by
  cases op with
  | account a acct =>
    have hlen : (encodeAccount [] acct).length = accountSize := by
      rw [length_encodeAccount, List.length_nil, Nat.zero_add]
    simp [decodeOp, Op.encode, Op.kind, Op.body, readU8, bind, Except.bind, List.append_assoc,
      readFixed_append, take_append hlen, decodeAccount_encodeAccount]
  | slot _ _ _ | deleteSlot _ _ =>
    simp [decodeOp, Op.encode, Op.kind, Op.body, readU8, bind, Except.bind, List.append_assoc,
      readFixed_append]
  | destruct a =>
    simp [decodeOp, Op.encode, Op.kind, Op.body, readU8, bind, Except.bind, readFixed_append]
  | code c v =>
    simp [decodeOp, Op.encode, Op.kind, Op.body, readU8, bind, Except.bind, List.append_assoc,
      readFixed_append, readU32_append h, take_append]

theorem decodeOps_flatMap {ops : List Op} (h : ∀ op ∈ ops, op.Encodable) (r : Bytes) :
    decodeOps ops.length (ops.flatMap Op.encode ++ r) = .ok (ops, r) := by
  induction ops with
  | nil => rfl
  | cons op ops ih =>
    have hop := h op (by simp)
    have hops := ih (fun o ho => h o (by simp [ho]))
    simp [decodeOps, List.append_assoc, decodeOp_encode hop, hops, bind, Except.bind]

/-- Decoding an encoded batch gives the batch back. -/
theorem decode_encode_of_encodable {b : Batch} (h : b.Encodable) : decode (b.encode []) = .ok b := by
  have hops := decodeOps_flatMap h.2 []
  rw [List.append_nil] at hops
  simp [decode, Batch.encode, Batch.header, List.append_assoc, readU64_append, readFixed_append,
    readU32_append h.1, hops, bind, Except.bind]

/-- A batch that is small enough for one value fits the length fields of its encoding. -/
theorem encodable_of_length {b : Batch} (h : (b.encode []).length < 2 ^ 32) : b.Encodable := by
  have hlen : (b.ops.flatMap Op.encode).length < 2 ^ 32 := by
    rw [Batch.encode, List.length_append] at h
    omega
  have hops : b.ops.length ≤ (b.ops.flatMap Op.encode).length := by
    induction b.ops with
    | nil => simp
    | cons op ops ih =>
      rw [List.flatMap_cons, List.length_append, List.length_cons, Op.encode, List.length_cons]
      omega
  refine ⟨by omega, fun op hop => ?_⟩
  have hmem : op.encode.length ≤ (b.ops.flatMap Op.encode).length := by
    obtain ⟨pre, post, hsplit⟩ := List.append_of_mem hop
    rw [hsplit, List.flatMap_append, List.flatMap_cons]
    simp only [List.length_append]
    omega
  cases op with
  | code c v =>
    have hv : v.length ≤ (Op.code c v).encode.length := by
      simp only [Op.encode, Op.body, List.length_cons, List.length_append]
      omega
    exact Nat.lt_of_le_of_lt (Nat.le_trans hv hmem) hlen
  | _ => trivial

/-! ## What decodes is an encoding

Each read returns what stands at the beginning of its input and hands back the rest, so a
batch that decodes is laid out in the input byte for byte. -/

theorem exists_of_bind_ok {ε α β : Type} {x : Except ε α} {f : α → Except ε β} {b : β}
    (h : x >>= f = .ok b) : ∃ a, x = .ok a ∧ f a = .ok b := by
  match x, h with
  | .ok a, h => exact ⟨a, rfl, h⟩

theorem take_ok {n : Nat} {b x r : Bytes} (h : take n b = .ok (x, r)) :
    x.length = n ∧ b = x ++ r := by
  rw [take] at h
  split at h
  · cases h
  · obtain ⟨rfl, rfl⟩ := Prod.mk.inj (Except.ok.inj h)
    exact ⟨by rw [List.length_take]; omega, (List.take_append_drop n b).symm⟩

theorem readU8_ok {b r : Bytes} {x : UInt8} (h : readU8 b = .ok (x, r)) : b = x :: r := by
  cases b with
  | nil => cases h
  | cons y b =>
    obtain ⟨rfl, rfl⟩ := Prod.mk.inj (Except.ok.inj h)
    rfl

theorem readFixed_ok {n : Nat} {b r : Bytes} {x : FixedBytes n} (h : readFixed n b = .ok (x, r)) :
    b = x.1 ++ r := by
  rw [readFixed] at h
  split at h
  · cases h
  · obtain ⟨rfl, rfl⟩ := Prod.mk.inj (Except.ok.inj h)
    exact (List.take_append_drop n b).symm

theorem readU32_ok {b r : Bytes} {n : Nat} (h : readU32 b = .ok (n, r)) :
    n < 2 ^ 32 ∧ b = beEncode 4 n ++ r := by
  rw [readU32] at h
  split at h
  · cases h
  · rename_i v r' hv
    obtain ⟨hlen, hb⟩ := take_ok hv
    obtain ⟨rfl, rfl⟩ := Prod.mk.inj (Except.ok.inj h)
    have hlt := beDecode_lt v
    rw [hlen] at hlt
    refine ⟨by rwa [show (256 : Nat) ^ 4 = 2 ^ 32 by norm_num] at hlt, ?_⟩
    rw [hb, ← hlen, beEncode_beDecode]

theorem readU64_ok {b r : Bytes} {n : UInt64} (h : readU64 b = .ok (n, r)) :
    b = beEncode 8 n.toNat ++ r := by
  rw [readU64] at h
  split at h
  · cases h
  · rename_i v r' hv
    obtain ⟨hlen, hb⟩ := take_ok hv
    obtain ⟨rfl, rfl⟩ := Prod.mk.inj (Except.ok.inj h)
    have hlt := beDecode_lt v
    rw [hlen, show (256 : Nat) ^ 8 = 2 ^ 64 by norm_num] at hlt
    rw [hb, UInt64.toNat_ofNat', Nat.mod_eq_of_lt hlt, ← hlen, beEncode_beDecode]

theorem decodeOp_ok {b r : Bytes} {op : Op} (hdec : decodeOp b = .ok (op, r)) :
    op.Encodable ∧ b = op.encode ++ r := by
  obtain ⟨⟨kind, b1⟩, hkind, h⟩ := exists_of_bind_ok hdec
  have hb : b = kind :: b1 := readU8_ok hkind
  dsimp only at h
  split at h
  · rename_i hk
    obtain ⟨⟨a, b2⟩, ha, h⟩ := exists_of_bind_ok h
    obtain ⟨⟨enc, b3⟩, he, h⟩ := exists_of_bind_ok h
    have hb1 : b1 = a.1 ++ b2 := readFixed_ok ha
    obtain ⟨-, hb2⟩ : _ ∧ b2 = enc ++ b3 := take_ok he
    split at h
    · rename_i acct hacct
      obtain ⟨rfl, rfl⟩ := Prod.mk.inj (Except.ok.inj h)
      refine ⟨trivial, ?_⟩
      simp [Op.encode, Op.kind, Op.body, hk, hb, hb1, hb2, encodeAccount_of_decodeAccount hacct]
    · cases h
  split at h
  · rename_i hk
    obtain ⟨⟨a, b2⟩, ha, h⟩ := exists_of_bind_ok h
    obtain ⟨⟨s, b3⟩, hs, h⟩ := exists_of_bind_ok h
    obtain ⟨⟨v, b4⟩, hv, h⟩ := exists_of_bind_ok h
    have hb1 : b1 = a.1 ++ b2 := readFixed_ok ha
    have hb2 : b2 = s.1 ++ b3 := readFixed_ok hs
    have hb3 : b3 = v.1 ++ b4 := readFixed_ok hv
    obtain ⟨rfl, rfl⟩ := Prod.mk.inj (Except.ok.inj h)
    refine ⟨trivial, ?_⟩
    simp [Op.encode, Op.kind, Op.body, hk, hb, hb1, hb2, hb3]
  split at h
  · rename_i hk
    obtain ⟨⟨a, b2⟩, ha, h⟩ := exists_of_bind_ok h
    obtain ⟨⟨s, b3⟩, hs, h⟩ := exists_of_bind_ok h
    have hb1 : b1 = a.1 ++ b2 := readFixed_ok ha
    have hb2 : b2 = s.1 ++ b3 := readFixed_ok hs
    obtain ⟨rfl, rfl⟩ := Prod.mk.inj (Except.ok.inj h)
    refine ⟨trivial, ?_⟩
    simp [Op.encode, Op.kind, Op.body, hk, hb, hb1, hb2]
  split at h
  · rename_i hk
    obtain ⟨⟨a, b2⟩, ha, h⟩ := exists_of_bind_ok h
    have hb1 : b1 = a.1 ++ b2 := readFixed_ok ha
    obtain ⟨rfl, rfl⟩ := Prod.mk.inj (Except.ok.inj h)
    refine ⟨trivial, ?_⟩
    simp [Op.encode, Op.kind, Op.body, hk, hb, hb1]
  split at h
  · rename_i hk
    obtain ⟨⟨c, b2⟩, hc, h⟩ := exists_of_bind_ok h
    obtain ⟨⟨cl, b3⟩, hcl, h⟩ := exists_of_bind_ok h
    obtain ⟨⟨v, b4⟩, hv, h⟩ := exists_of_bind_ok h
    have hb1 : b1 = c.1 ++ b2 := readFixed_ok hc
    obtain ⟨hlt, hb2⟩ : cl < 2 ^ 32 ∧ b2 = beEncode 4 cl ++ b3 := readU32_ok hcl
    obtain ⟨hlen, hb3⟩ : v.length = cl ∧ b3 = v ++ b4 := take_ok hv
    obtain ⟨rfl, rfl⟩ := Prod.mk.inj (Except.ok.inj h)
    refine ⟨by rw [Op.Encodable, hlen]; exact hlt, ?_⟩
    simp [Op.encode, Op.kind, Op.body, hk, hb, hb1, hb2, hb3, hlen]
  · cases h

theorem decodeOps_ok {n : Nat} {b r : Bytes} {ops : List Op} (h : decodeOps n b = .ok (ops, r)) :
    ops.length = n ∧ (∀ op ∈ ops, op.Encodable) ∧ b = ops.flatMap Op.encode ++ r := by
  induction n generalizing b r ops with
  | zero =>
    obtain ⟨rfl, rfl⟩ := Prod.mk.inj (Except.ok.inj h)
    exact ⟨rfl, by simp, rfl⟩
  | succ n ih =>
    obtain ⟨⟨op, b1⟩, hop, h⟩ := exists_of_bind_ok h
    obtain ⟨⟨rest, b2⟩, hrest, h⟩ := exists_of_bind_ok h
    obtain ⟨henc, hb⟩ := decodeOp_ok hop
    obtain ⟨hlen, hall, hb1⟩ : _ ∧ _ ∧ b1 = rest.flatMap Op.encode ++ b2 := ih hrest
    obtain ⟨rfl, rfl⟩ := Prod.mk.inj (Except.ok.inj h)
    refine ⟨by rw [List.length_cons, hlen], ?_, by rw [hb, hb1]; simp⟩
    intro o ho
    rcases List.mem_cons.mp ho with rfl | ho
    · exact henc
    · exact hall o ho

/-- A batch that decodes is encodable, and the input is its encoding. -/
theorem encode_of_decode {data : Bytes} {b : Batch} (hdec : decode data = .ok b) :
    b.Encodable ∧ b.encode [] = data := by
  obtain ⟨⟨block, b1⟩, h1, h⟩ := exists_of_bind_ok hdec
  obtain ⟨⟨hash, b2⟩, h2, h⟩ := exists_of_bind_ok h
  obtain ⟨⟨parent, b3⟩, h3, h⟩ := exists_of_bind_ok h
  obtain ⟨⟨time, b4⟩, h4, h⟩ := exists_of_bind_ok h
  obtain ⟨⟨n, b5⟩, h5, h⟩ := exists_of_bind_ok h
  obtain ⟨⟨ops, b6⟩, h6, h⟩ := exists_of_bind_ok h
  dsimp only at h
  split at h
  · cases h
  · rename_i hnil
    have hb6 : b6 = [] := List.length_eq_zero_iff.mp (not_not.mp hnil)
    have hdata : data = beEncode 8 block.toNat ++ b1 := readU64_ok h1
    have hb1 : b1 = hash.1 ++ b2 := readFixed_ok h2
    have hb2 : b2 = parent.1 ++ b3 := readFixed_ok h3
    have hb3 : b3 = beEncode 8 time.toNat ++ b4 := readU64_ok h4
    obtain ⟨hlt, hb4⟩ : n < 2 ^ 32 ∧ b4 = beEncode 4 n ++ b5 := readU32_ok h5
    obtain ⟨hlen, hall, hb5⟩ : ops.length = n ∧ _ ∧ b5 = ops.flatMap Op.encode ++ b6 :=
      decodeOps_ok h6
    obtain rfl := Except.ok.inj h
    refine ⟨⟨by rw [hlen]; exact hlt, hall⟩, ?_⟩
    simp [Batch.encode, Batch.header, hdata, hb1, hb2, hb3, hb4, hb5, hb6, hlen]

/-! ## What does not decode -/

/-- Bytes after the last op. -/
theorem decode_trailing {b : Batch} (h : b.Encodable) {r : Bytes} (hr : r ≠ []) :
    decode (b.encode [] ++ r) = .error (.trailing r.length) := by
  have hlen : r.length ≠ 0 := fun h0 => hr (List.length_eq_zero_iff.mp h0)
  simp [decode, Batch.encode, Batch.header, List.append_assoc, readU64_append, readFixed_append,
    readU32_append h.1, decodeOps_flatMap h.2, bind, Except.bind, hlen]

/-- A beginning of an encoding: with the missing bytes it would be an encoding with bytes
after its last op. -/
theorem decode_truncated {b : Batch} (h : b.Encodable) {n : Nat} (hn : n < (b.encode []).length) :
    ∃ e, decode ((b.encode []).take n) = .error e := by
  cases hdec : decode ((b.encode []).take n) with
  | error e => exact ⟨e, rfl⟩
  | ok b' =>
    obtain ⟨henc, heq⟩ := encode_of_decode hdec
    have hsplit : b'.encode [] ++ (b.encode []).drop n = b.encode [] := by
      rw [heq, List.take_append_drop]
    have hne : (b.encode []).drop n ≠ [] := by
      rw [Ne, List.drop_eq_nil_iff]
      omega
    have htrail := decode_trailing henc hne
    rw [hsplit, decode_encode_of_encodable h] at htrail
    cases htrail

theorem decodeOp_unknownKind {kind : UInt8} (h : ¬ (1 ≤ kind ∧ kind ≤ 5)) (r : Bytes) :
    decodeOp (kind :: r) = .error (.unknownKind kind) := by
  have hne : ∀ k : UInt8, 1 ≤ k ∧ k ≤ 5 → kind ≠ k := fun k hk hkind => h (hkind ▸ hk)
  have h1 := hne 1 (by decide)
  have h2 := hne 2 (by decide)
  have h3 := hne 3 (by decide)
  have h4 := hne 4 (by decide)
  have h5 := hne 5 (by decide)
  simp [decodeOp, readU8, bind, Except.bind, h1, h2, h3, h4, h5]

theorem decodeOps_unknownKind {ops : List Op} (h : ∀ op ∈ ops, op.Encodable) {kind : UInt8}
    (hk : ¬ (1 ≤ kind ∧ kind ≤ 5)) {n : Nat} (hn : ops.length < n) (r : Bytes) :
    decodeOps n (ops.flatMap Op.encode ++ kind :: r) = .error (.unknownKind kind) := by
  obtain ⟨m, rfl⟩ : ∃ m, n = m + 1 := ⟨n - 1, by omega⟩
  induction ops generalizing m with
  | nil => simp [decodeOps, decodeOp_unknownKind hk, bind, Except.bind]
  | cons op ops ih =>
    rw [List.length_cons] at hn
    have hop := h op (by simp)
    obtain ⟨k, rfl⟩ : ∃ k, m = k + 1 := ⟨m - 1, by omega⟩
    have hops := ih (fun o ho => h o (by simp [ho])) k (by omega)
    rw [decodeOps]
    simp [List.append_assoc, decodeOp_encode hop, hops, bind, Except.bind]

/-- An op of another kind, where the count in the header says that there is one more. -/
theorem decode_unknownKind {b : Batch} (h : b.Encodable) {n : Nat} (hn : n < b.ops.length)
    {kind : UInt8} (hk : ¬ (1 ≤ kind ∧ kind ≤ 5)) (r : Bytes) :
    decode (b.header ++ ((b.ops.take n).flatMap Op.encode ++ kind :: r)) =
      .error (.unknownKind kind) := by
  have hall : ∀ op ∈ b.ops.take n, op.Encodable := fun op hop => h.2 op (List.mem_of_mem_take hop)
  have hlen : (b.ops.take n).length < b.ops.length := by
    rw [List.length_take]
    omega
  simp [decode, Batch.header, List.append_assoc, readU64_append, readFixed_append,
    readU32_append h.1, decodeOps_unknownKind hall hk hlen, bind, Except.bind]

/-- The batch format is a bijection between the batches that fit its length fields and the
byte strings `Decode` accepts; everything else is rejected: what is not an encoding, what is
cut short, what goes on after the last op, and an op of an unknown kind. -/
theorem batch_format_bijective :
    (∀ b : Batch, b.Encodable → decode (b.encode []) = .ok b) ∧
    (∀ data b, decode data = .ok b → b.Encodable ∧ b.encode [] = data) ∧
    (∀ data, (¬ ∃ b : Batch, b.Encodable ∧ b.encode [] = data) → ∃ e, decode data = .error e) ∧
    (∀ b : Batch, b.Encodable → ∀ n, n < (b.encode []).length →
      ∃ e, decode ((b.encode []).take n) = .error e) ∧
    (∀ b : Batch, b.Encodable → ∀ r, r ≠ [] →
      decode (b.encode [] ++ r) = .error (.trailing r.length)) ∧
    (∀ b : Batch, b.Encodable → ∀ n, n < b.ops.length → ∀ kind : UInt8, ¬ (1 ≤ kind ∧ kind ≤ 5) →
      ∀ r, decode (b.header ++ ((b.ops.take n).flatMap Op.encode ++ kind :: r)) =
        .error (.unknownKind kind)) := by
  refine ⟨fun b => decode_encode_of_encodable, fun data b => encode_of_decode, ?_,
    fun b hb n => decode_truncated hb, fun b hb r => decode_trailing hb,
    fun b hb n hn kind hk r => decode_unknownKind hb hn hk r⟩
  intro data hdata
  cases hdec : decode data with
  | error e => exact ⟨e, rfl⟩
  | ok b => exact absurd ⟨b, encode_of_decode hdec⟩ hdata

end Flatstate.Capture
