import Flatstate.Foundation.Bytes

set_option autoImplicit false

/-!
# Schema: addresses, hashes and the account post-image (`schema/schema.go`)

The value types shared by every package and the fixed 72-byte encoding of an
account.  Go's fixed arrays are byte lists that carry their length, so that a
value of the wrong width cannot be built.
-/

namespace Flatstate.Schema

open Foundation

/-- A 20-byte account address. -/
abbrev Address := FixedBytes 20

/-- A 32-byte hash, storage slot or storage value. -/
abbrev Hash := FixedBytes 32

/-- The zero hash: the value of a slot nobody has written. -/
abbrev Hash.zero : Hash := FixedBytes.zero 32

/-- An account post-image.  `balance` is a 256-bit unsigned integer. -/
structure Account where
  balance : BitVec 256
  nonce : UInt64
  codeHash : Hash
  deriving DecidableEq, Inhabited

/-- `schema.Account{}`. -/
def Account.zero : Account := ⟨0, 0, Hash.zero⟩

/-- The encoded size of an account: balance, nonce, code hash. -/
def accountSize : Nat := 32 + 8 + 32

/-- `EncodeAccount`: append the fixed 72-byte encoding to `dst`. -/
def encodeAccount (dst : Bytes) (a : Account) : Bytes :=
  dst ++ beEncode 32 a.balance.toNat ++ beEncode 8 a.nonce.toNat ++ a.codeHash.1

/-- `DecodeAccount`: only an input of exactly 72 bytes is an account.  The error
carries the length found. -/
def decodeAccount (b : Bytes) : Except Nat Account :=
  if h : b.length = accountSize then
    .ok {
      balance := BitVec.ofNat 256 (beDecode (b.take 32))
      nonce := UInt64.ofNat (beDecode ((b.drop 32).take 8))
      codeHash := ⟨b.drop 40, by simp [h, accountSize]⟩ }
  else .error b.length

theorem length_encodeAccount (dst : Bytes) (a : Account) :
    (encodeAccount dst a).length = dst.length + accountSize := by
  simp [encodeAccount, accountSize, a.codeHash.2]

theorem balance_toNat_lt (b : BitVec 256) : b.toNat < 256 ^ 32 := by
  have hpow : (256 : Nat) ^ 32 = 2 ^ 256 := by norm_num
  rw [hpow]
  exact b.isLt

theorem uint64_toNat_lt (n : UInt64) : n.toNat < 256 ^ 8 := by
  have hpow : (256 : Nat) ^ 8 = 2 ^ 64 := by norm_num
  rw [hpow]
  exact n.toNat_lt

theorem decodeAccount_encodeAccount (a : Account) :
    decodeAccount (encodeAccount [] a) = .ok a := by
  obtain ⟨bal, nonce, code⟩ := a
  have hlen : (encodeAccount [] ⟨bal, nonce, code⟩).length = accountSize := by
    rw [length_encodeAccount, List.length_nil, Nat.zero_add]
  have henc : encodeAccount [] ⟨bal, nonce, code⟩ =
      beEncode 32 bal.toNat ++ (beEncode 8 nonce.toNat ++ code.1) := by
    simp [encodeAccount]
  have h32 : (beEncode 32 bal.toNat).length = 32 := length_beEncode _ _
  have h8 : (beEncode 8 nonce.toNat).length = 8 := length_beEncode _ _
  have h40 : (encodeAccount [] ⟨bal, nonce, code⟩).drop 40 = code.1 := by
    have h40 : (beEncode 32 bal.toNat ++ beEncode 8 nonce.toNat).length = 40 := by
      rw [List.length_append, h32, h8]
    rw [henc, ← List.append_assoc, List.drop_left' h40]
  have hbal : beDecode ((encodeAccount [] ⟨bal, nonce, code⟩).take 32) = bal.toNat := by
    rw [henc, List.take_left' h32, beDecode_beEncode_of_lt (balance_toNat_lt bal)]
  have hnonce : beDecode (((encodeAccount [] ⟨bal, nonce, code⟩).drop 32).take 8) =
      nonce.toNat := by
    rw [henc, List.drop_left' h32, List.take_left' h8,
      beDecode_beEncode_of_lt (uint64_toNat_lt nonce)]
  rw [decodeAccount, dif_pos hlen]
  simp only [hbal, hnonce, h40, BitVec.ofNat_toNat, BitVec.setWidth_eq, UInt64.ofNat_toNat]

/-- Every 72-byte string is the encoding of the account it decodes to. -/
theorem encodeAccount_of_decodeAccount {b : Bytes} {a : Account} (h : decodeAccount b = .ok a) :
    encodeAccount [] a = b := by
  unfold decodeAccount at h
  split at h
  · rename_i hlen
    have hlen' : b.length = 72 := hlen
    have ha := (Except.ok.inj h).symm
    subst ha
    have h32 : (b.take 32).length = 32 := by simp [hlen']
    have h8 : ((b.drop 32).take 8).length = 8 := by simp [hlen']
    have hbal : (BitVec.ofNat 256 (beDecode (b.take 32))).toNat = beDecode (b.take 32) := by
      have hlt := beDecode_lt (b.take 32)
      have hpow : (256 : Nat) ^ 32 = 2 ^ 256 := by norm_num
      rw [h32, hpow] at hlt
      rw [BitVec.toNat_ofNat, Nat.mod_eq_of_lt hlt]
    have hnonce : (UInt64.ofNat (beDecode ((b.drop 32).take 8))).toNat =
        beDecode ((b.drop 32).take 8) := by
      have hlt := beDecode_lt ((b.drop 32).take 8)
      have hpow : (256 : Nat) ^ 8 = 2 ^ 64 := by norm_num
      rw [h8, hpow] at hlt
      rw [UInt64.toNat_ofNat', Nat.mod_eq_of_lt hlt]
    have e1 : beEncode 32 (beDecode (b.take 32)) = b.take 32 := by
      have := beEncode_beDecode (b.take 32)
      rwa [h32] at this
    have e2 : beEncode 8 (beDecode ((b.drop 32).take 8)) = (b.drop 32).take 8 := by
      have := beEncode_beDecode ((b.drop 32).take 8)
      rwa [h8] at this
    simp only [encodeAccount, List.nil_append, hbal, hnonce, e1, e2]
    have e3 : b.drop 40 = (b.drop 32).drop 8 := by simp
    rw [e3, List.append_assoc, List.take_append_drop, List.take_append_drop]
  · simp at h

end Flatstate.Schema
