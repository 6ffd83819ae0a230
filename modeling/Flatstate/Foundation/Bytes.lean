import Mathlib.Data.List.Lex
import Mathlib.Data.List.Induction
import Mathlib.Order.Lattice
import Mathlib.Tactic.Ring

set_option autoImplicit false

/-!
# Foundation: byte strings, their order, and big-endian integers

A byte-ordered key/value store compares keys as byte strings: first difference
decides, and a proper prefix comes first.  That is the lexicographic order on
`List UInt8`.  This module fixes the order and the two facts a key layout rests
on: a key caught between two keys with a common prefix carries that prefix
(`exists_append_of_between`), and fixed-width big-endian integers sort as the
integers they encode (`beDecode_lt_iff`).

Nothing here knows about a particular layout.
-/

namespace Flatstate.Foundation

/-- A byte string. -/
abbrev Bytes := List UInt8

instance linearOrderUInt8 : LinearOrder UInt8 where
  le_refl a := UInt8.le_refl a
  le_trans a b c := UInt8.le_trans
  le_antisymm a b := UInt8.le_antisymm
  le_total a b := UInt8.le_total a b
  lt_iff_le_not_ge a b := by
    simp only [UInt8.lt_iff_toNat_lt, UInt8.le_iff_toNat_le]
    omega
  toDecidableLE a b := inferInstanceAs (Decidable (a ≤ b))
  toDecidableLT a b := inferInstanceAs (Decidable (a < b))
  toDecidableEq := inferInstance

/-! ## The lexicographic order and common prefixes -/

section Lex

variable {α : Type} [LinearOrder α]

theorem cons_lt_cons {a b : α} {l l' : List α} :
    a :: l < b :: l' ↔ a < b ∨ a = b ∧ l < l' := by
  constructor
  · intro h
    cases h with
    | cons h => exact Or.inr ⟨rfl, h⟩
    | rel h => exact Or.inl h
  · rintro (h | ⟨rfl, h⟩)
    · exact List.Lex.rel h
    · exact List.Lex.cons h

theorem cons_le_cons {a b : α} {l l' : List α} :
    a :: l ≤ b :: l' ↔ a < b ∨ a = b ∧ l ≤ l' := by
  rw [le_iff_lt_or_eq, cons_lt_cons, List.cons.injEq, le_iff_lt_or_eq]
  tauto

@[simp] theorem append_lt_append_left (p x y : List α) : p ++ x < p ++ y ↔ x < y := by
  induction p with
  | nil => rfl
  | cons a p ih =>
    rw [List.cons_append, List.cons_append, cons_lt_cons, ih]
    simp

@[simp] theorem append_le_append_left (p x y : List α) : p ++ x ≤ p ++ y ↔ x ≤ y := by
  rw [← not_lt, ← not_lt, append_lt_append_left]

/-- A string between two extensions of `p` is itself an extension of `p`. -/
theorem exists_append_of_between (p : List α) :
    ∀ {x y k : List α}, p ++ x ≤ k → k ≤ p ++ y → ∃ z, k = p ++ z ∧ x ≤ z ∧ z ≤ y := by
  induction p with
  | nil => intro x y k hx hy; exact ⟨k, rfl, hx, hy⟩
  | cons a p ih =>
    intro x y k hx hy
    cases k with
    | nil => exact absurd hx (not_le.mpr List.Lex.nil)
    | cons b k =>
      rw [List.cons_append, cons_le_cons] at hx hy
      -- both neighbours start with `a`, so the string in between does as well
      have hab : a = b := by
        rcases hx with hx | hx
        · rcases hy with hy | hy
          · exact absurd hx (not_lt_of_gt hy)
          · exact hy.1.symm
        · exact hx.1
      subst hab
      have hx' : p ++ x ≤ k := by simpa using hx
      have hy' : k ≤ p ++ y := by simpa using hy
      obtain ⟨z, rfl, h1, h2⟩ := ih hx' hy'
      exact ⟨z, rfl, h1, h2⟩

/-- A string is at or below its extensions. -/
theorem le_append (p x : List α) : p ≤ p ++ x := by
  have h := (append_le_append_left p [] x).mpr (not_lt.mp (List.not_lt_nil x))
  rwa [List.append_nil] at h

/-- A string between `p` and an extension of it is itself an extension. -/
theorem exists_append_of_le {p y k : List α} (hp : p ≤ k) (hk : k ≤ p ++ y) : ∃ z, k = p ++ z := by
  obtain ⟨z, hz, -⟩ := exists_append_of_between p (x := []) (by rwa [List.append_nil]) hk
  exact ⟨z, hz⟩

end Lex

/-- No string of a length is above the one of greatest bytes. -/
theorem le_replicate_max {n : Nat} {x : Bytes} (h : x.length = n) : x ≤ List.replicate n 0xff := by
  induction x generalizing n with
  | nil => exact not_lt.mp (List.not_lt_nil _)
  | cons b x ih =>
    obtain ⟨m, rfl⟩ : ∃ m, n = m + 1 := ⟨x.length, by rw [← h, List.length_cons]⟩
    rw [List.replicate_succ, cons_le_cons]
    have hb : b ≤ 0xff := UInt8.le_iff_toNat_le.mpr (Nat.le_of_lt_succ b.toNat_lt)
    rcases lt_or_eq_of_le hb with hlt | heq
    · exact Or.inl hlt
    · exact Or.inr ⟨heq, ih (by simpa using h)⟩

/-! ## Big-endian integers -/

/-- The low `w` bytes of `n`, most significant first. -/
def beEncode : Nat → Nat → Bytes
  | 0, _ => []
  | w + 1, n => beEncode w (n / 256) ++ [UInt8.ofNat (n % 256)]

/-- The integer a byte string denotes, most significant byte first. -/
def beDecode (b : Bytes) : Nat :=
  b.foldl (fun acc x => acc * 256 + x.toNat) 0

@[simp] theorem length_beEncode (w n : Nat) : (beEncode w n).length = w := by
  induction w generalizing n with
  | zero => rfl
  | succ w ih => simp [beEncode, ih]

@[simp] theorem beDecode_nil : beDecode [] = 0 := rfl

theorem beDecode_concat (b : Bytes) (x : UInt8) :
    beDecode (b ++ [x]) = beDecode b * 256 + x.toNat := by
  simp [beDecode]

theorem beDecode_lt (b : Bytes) : beDecode b < 256 ^ b.length := by
  induction b using List.reverseRecOn with
  | nil => simp
  | append_singleton b x ih =>
    have hx : x.toNat < 256 := x.toNat_lt
    rw [beDecode_concat, List.length_append, List.length_singleton, Nat.pow_succ]
    omega

theorem beDecode_beEncode (w n : Nat) : beDecode (beEncode w n) = n % 256 ^ w := by
  induction w generalizing n with
  | zero => simp [beEncode, Nat.mod_one]
  | succ w ih =>
    calc beDecode (beEncode (w + 1) n)
        = beDecode (beEncode w (n / 256)) * 256 + (UInt8.ofNat (n % 256)).toNat :=
          beDecode_concat _ _
      _ = n / 256 % 256 ^ w * 256 + n % 256 := by rw [ih]; simp
      _ = n % (256 * 256 ^ w) := by rw [Nat.mod_mul]; ring
      _ = n % 256 ^ (w + 1) := by rw [Nat.pow_succ']

theorem beDecode_beEncode_of_lt {w n : Nat} (h : n < 256 ^ w) :
    beDecode (beEncode w n) = n := by
  rw [beDecode_beEncode, Nat.mod_eq_of_lt h]

theorem beEncode_beDecode (b : Bytes) : beEncode b.length (beDecode b) = b := by
  induction b using List.reverseRecOn with
  | nil => rfl
  | append_singleton b x ih =>
    have hx : x.toNat < 256 := x.toNat_lt
    rw [beDecode_concat, List.length_append, List.length_singleton, beEncode]
    have hdiv : (beDecode b * 256 + x.toNat) / 256 = beDecode b := by omega
    have hmod : (beDecode b * 256 + x.toNat) % 256 = x.toNat := by omega
    rw [hdiv, hmod, ih, UInt8.ofNat_toNat]

theorem beDecode_cons (x : UInt8) (b : Bytes) :
    beDecode (x :: b) = x.toNat * 256 ^ b.length + beDecode b := by
  induction b using List.reverseRecOn with
  | nil => simp [beDecode]
  | append_singleton b y ih =>
    rw [← List.cons_append, beDecode_concat, ih, beDecode_concat, List.length_append,
      List.length_singleton, Nat.pow_succ]
    ring

/-- Strings of one length compare as the integers they denote. -/
theorem beDecode_lt_iff {b b' : Bytes} (h : b.length = b'.length) :
    beDecode b < beDecode b' ↔ b < b' := by
  induction b generalizing b' with
  | nil =>
    cases b' with
    | nil => simp
    | cons y b' => simp at h
  | cons x b ih =>
    cases b' with
    | nil => simp at h
    | cons y b' =>
      have hlen : b.length = b'.length := by simpa using h
      have hb := beDecode_lt b
      have hb' := beDecode_lt b'
      rw [beDecode_cons, beDecode_cons, cons_lt_cons, ← ih hlen, hlen, UInt8.lt_iff_toNat_lt,
        ← UInt8.toNat_inj]
      rw [hlen] at hb
      constructor
      · intro hlt
        by_contra hcon
        obtain ⟨hle, hrest⟩ := not_or.mp hcon
        rcases Nat.lt_or_ge y.toNat x.toNat with hyx | hyx
        · have hmul : (y.toNat + 1) * 256 ^ b'.length ≤ x.toNat * 256 ^ b'.length :=
            Nat.mul_le_mul_right _ hyx
          rw [Nat.succ_mul] at hmul
          omega
        · have heq : x.toNat = y.toNat := by omega
          rw [heq] at hlt
          exact hrest ⟨heq, by omega⟩
      · rintro (hlt | ⟨heq, hlt⟩)
        · have hmul : (x.toNat + 1) * 256 ^ b'.length ≤ y.toNat * 256 ^ b'.length :=
            Nat.mul_le_mul_right _ hlt
          rw [Nat.succ_mul] at hmul
          omega
        · rw [heq]
          omega

theorem beDecode_le_iff {b b' : Bytes} (h : b.length = b'.length) :
    beDecode b ≤ beDecode b' ↔ b ≤ b' := by
  rw [← not_lt, ← not_lt, beDecode_lt_iff h.symm]

/-! ## Fixed-width byte arrays -/

/-- A byte array of exactly `n` bytes. -/
abbrev FixedBytes (n : Nat) := { b : Bytes // b.length = n }

namespace FixedBytes

variable {n : Nat}

/-- All bytes zero. -/
def zero (n : Nat) : FixedBytes n := ⟨List.replicate n 0, List.length_replicate⟩

instance : Inhabited (FixedBytes n) := ⟨zero n⟩

/-- Membership is decided by comparing the bytes. -/
instance decidableMem (b : FixedBytes n) (bs : List (FixedBytes n)) : Decidable (b ∈ bs) :=
  inferInstance

/-- The low `n` bytes of an integer. -/
def ofNat (n : Nat) (v : Nat) : FixedBytes n := ⟨beEncode n v, length_beEncode n v⟩

end FixedBytes

end Flatstate.Foundation
