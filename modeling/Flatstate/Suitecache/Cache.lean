import Flatstate.Foundation.Table
import Flatstate.Store.Read

set_option autoImplicit false

/-!
# Suitecache: the cache of a test suite (`suitecache/suitecache.go`)

One file per suite and block, loaded into maps.  A miss reads the store at the cache's block
and is added; `Close` rewrites the file if anything was added.

The file is a header and records in the order in which Go ranges over the maps, so what
`Close` writes is one of several byte strings.  Loading any of them gives the maps back.
-/

namespace Flatstate.Suitecache

open Foundation Schema Store

/-! ## The cache -/

/-- `acct`: the account, and whether it exists. -/
abbrev Acct := Account × Bool

/-- `Cache`; its store is passed to each call. -/
structure Cache where
  /-- a store is attached -/
  attached : Bool
  block : UInt64
  dirty : Bool
  accounts : Table Address Acct
  slots : Table (Address × Hash) Hash
  code : Table Hash Bytes

/-- An empty cache. -/
def Cache.new (block : UInt64) (attached : Bool) : Cache :=
  ⟨attached, block, false, Table.empty, Table.empty, Table.empty⟩

/-- What a call fails with. -/
inductive CacheErr where
  /-- "bad magic" -/
  | badMagic
  /-- "file is for block %d, want %d" -/
  | wrongBlock (found want : UInt64)
  /-- `io.ErrUnexpectedEOF` -/
  | unexpectedEOF
  | accountSize (n : Nat)
  /-- "unknown record tag %d" -/
  | unknownTag (tag : UInt8)
  /-- not an error but a panic: slice bounds out of range -/
  | sliceBounds
  /-- "suitecache: miss with no store attached" -/
  | noStore
  | store (e : Err)
  deriving DecidableEq

/-- `DB.GetAccount` returns the zero account with `exists = false`. -/
def Acct.ofStore : Option Account → Acct
  | some a => (a, true)
  | none => (Account.zero, false)

section Calls

variable (keccak : Bytes → Hash) (h : Handle) (env : Env)

/-- `Cache.Account`. -/
def Cache.account (c : Cache) (addr : Address) : Except CacheErr Acct × Cache :=
  match c.accounts.get addr with
  | some e => (.ok e, c)
  | none =>
    if c.attached then
      match getAccount keccak h env addr c.block with
      | .error e => (.error (.store e), c)
      | .ok a =>
        (.ok (Acct.ofStore a),
          { c with accounts := c.accounts.set addr (Acct.ofStore a), dirty := true })
    else (.error .noStore, c)

/-- `Cache.Slot`. -/
def Cache.slot (c : Cache) (addr : Address) (slot : Hash) : Except CacheErr Hash × Cache :=
  match c.slots.get (addr, slot) with
  | some v => (.ok v, c)
  | none =>
    if c.attached then
      match getSlot keccak h env addr slot c.block with
      | .error e => (.error (.store e), c)
      | .ok v => (.ok v, { c with slots := c.slots.set (addr, slot) v, dirty := true })
    else (.error .noStore, c)

end Calls

/-- `Cache.Code`. -/
def Cache.codeOf (env : Env) (c : Cache) (hash : Hash) : Except CacheErr Bytes × Cache :=
  match c.code.get hash with
  | some v => (.ok v, c)
  | none =>
    if c.attached then
      match getCode env hash with
      | .error e => (.error (.store e), c)
      | .ok v => (.ok v, { c with code := c.code.set hash v, dirty := true })
    else (.error .noStore, c)

/-! ## The file -/

/-- A record. -/
inductive Record where
  | account (addr : Address) (e : Acct)
  | slot (addr : Address) (k v : Hash)
  | code (hash : Hash) (code : Bytes)

def magic : Bytes := [70, 83, 67, 49, 0, 0, 0, 0]

/-- A record with its tag. -/
def Record.encode : Record → Bytes
  | .account addr e => 1 :: (addr.1 ++ (if e.2 then 1 else 0) :: encodeAccount [] e.1)
  | .slot addr k v => 2 :: (addr.1 ++ (k.1 ++ v.1))
  -- `uint32(len(code))`: the low four bytes of the length
  | .code hash c => 3 :: (hash.1 ++ (beEncode 4 c.length ++ c))

/-- The file with some records. -/
def fileOf (block : UInt64) (rs : List Record) : Bytes :=
  magic ++ (beEncode 8 block.toNat ++ rs.flatMap Record.encode)

/-- The records of a cache as `Close` may range over them: the accounts, the slots and then the
code, each in some order. -/
def Cache.Listing (c : Cache) (rs : List Record) : Prop :=
  ∃ as ss cs, List.Perm as c.accounts.entries ∧ List.Perm ss c.slots.entries ∧
    List.Perm cs c.code.entries ∧
    rs = as.map (fun e => .account e.1 e.2) ++
      (ss.map (fun e => .slot e.1.1 e.1.2 e.2) ++ cs.map (fun e => .code e.1 e.2))

/-- What `Close` may write. -/
def Cache.Writes (c : Cache) (data : Bytes) : Prop :=
  ∃ rs, c.Listing rs ∧ data = fileOf c.block rs

/-- `copy` of the front of a slice into a fixed array. -/
def copyFixed (n : Nat) (b : Bytes) : FixedBytes n :=
  ⟨(b ++ List.replicate n 0).take n, by simp⟩

/-- The record of a tag, and the bytes behind it. -/
def readRecord (tag : UInt8) (data : Bytes) : Except CacheErr (Record × Bytes) :=
  if tag = 1 then
    if data.length < 20 + 1 + accountSize then .error .unexpectedEOF
    else
      match decodeAccount ((data.drop 21).take accountSize) with
      | .error n => .error (.accountSize n)
      | .ok a =>
        .ok (.account (copyFixed 20 data) (a, decide ((data.drop 20).head? = some 1)),
          data.drop (21 + accountSize))
  else if tag = 2 then
    if data.length < 20 + 32 + 32 then .error .unexpectedEOF
    else
      .ok (.slot (copyFixed 20 data) (copyFixed 32 (data.drop 20)) (copyFixed 32 (data.drop 52)),
        data.drop 84)
  else if tag = 3 then
    if data.length < 36 then .error .unexpectedEOF
    else
      let l := beDecode ((data.drop 32).take 4)
      if data.length < 36 + l then .error .unexpectedEOF
      -- `data[36 : 36+l]`: the sum is of 32 bits
      else if 2 ^ 32 ≤ 36 + l then .error .sliceBounds
      else .ok (.code (copyFixed 32 data) ((data.drop 36).take l), data.drop (36 + l))
  else .error (.unknownTag tag)

/-- A record goes into its map; a later one replaces an earlier one. -/
def Cache.insert (c : Cache) : Record → Cache
  | .account addr e => { c with accounts := c.accounts.set addr e }
  | .slot addr k v => { c with slots := c.slots.set (addr, k) v }
  | .code hash v => { c with code := c.code.set hash v }

theorem readRecord_length {tag : UInt8} {data rest : Bytes} {r : Record}
    (h : readRecord tag data = .ok (r, rest)) : rest.length ≤ data.length := by
  have hdrop : ∀ n, (data.drop n).length ≤ data.length := fun n => by
    rw [List.length_drop]
    omega
  rw [readRecord] at h
  split at h
  · split at h
    · cases h
    · split at h
      · cases h
      · obtain ⟨-, rfl⟩ := Prod.mk.inj (Except.ok.inj h)
        exact hdrop _
  · split at h
    · split at h
      · cases h
      · obtain ⟨-, rfl⟩ := Prod.mk.inj (Except.ok.inj h)
        exact hdrop _
    · split at h
      · split at h
        · cases h
        · dsimp only at h
          split at h
          · cases h
          · split at h
            · cases h
            · obtain ⟨-, rfl⟩ := Prod.mk.inj (Except.ok.inj h)
              exact hdrop _
      · cases h

/-- The records of `Cache.load`. -/
def loadRecords (c : Cache) (data : Bytes) : Except CacheErr Cache :=
  match data with
  | [] => .ok c
  | tag :: data =>
    match _h : readRecord tag data with
    | .error e => .error e
    | .ok (r, rest) => loadRecords (c.insert r) rest
termination_by data.length
decreasing_by
  have := readRecord_length _h
  rw [List.length_cons]
  omega

/-- `Cache.load`. -/
def Cache.load (c : Cache) (data : Bytes) : Except CacheErr Cache :=
  if data.length < 16 ∨ data.take 8 ≠ magic then .error .badMagic
  else
    let b := UInt64.ofNat (beDecode ((data.drop 8).take 8))
    if b ≠ c.block then .error (.wrongBlock b c.block)
    else loadRecords c (data.drop 16)

/-- `Open`, on the file if there is one. -/
def openCache (file : Option Bytes) (block : UInt64) (attached : Bool) : Except CacheErr Cache :=
  match file with
  | none => .ok (Cache.new block attached)
  | some data => (Cache.new block attached).load data

/-! ## Round trip -/

theorem copyFixed_append {n : Nat} (x : FixedBytes n) (rest : Bytes) :
    copyFixed n (x.1 ++ rest) = x := by
  apply Subtype.ext
  have hcopy : (copyFixed n (x.1 ++ rest)).1 = (x.1 ++ (rest ++ List.replicate n 0)).take n := by
    rw [← List.append_assoc]
    rfl
  rw [hcopy]
  exact List.take_left' x.2

/-- The code of a record has a length that LMDB takes. -/
def Record.Fits : Record → Prop
  | .code _ c => c.length < 2 ^ 32
  | _ => True

/-- The code of a record can be sliced out again. -/
def Record.Sliced : Record → Prop
  | .code _ c => 36 + c.length < 2 ^ 32
  | _ => True

theorem drop_append_of_length {α : Type} {a b : List α} {n m : Nat} (h : a.length = n) :
    (a ++ b).drop (n + m) = b.drop m := by
  rw [← h, ← List.drop_drop, List.drop_left' rfl]

theorem readRecord_account (addr : Address) (e : Acct) (rest : Bytes) :
    readRecord 1 (addr.1 ++ (if e.2 then 1 else 0) :: encodeAccount [] e.1 ++ rest) =
      .ok (.account addr e, rest) := by
  obtain ⟨a, present⟩ := e
  have haddr : addr.1.length = 20 := addr.2
  have henc : (encodeAccount [] a).length = accountSize := by
    rw [length_encodeAccount, List.length_nil, Nat.zero_add]
  dsimp only
  have hdata : addr.1 ++ (if present then 1 else 0) :: encodeAccount [] a ++ rest =
      addr.1 ++ ((if present then 1 else 0) :: (encodeAccount [] a ++ rest)) := by
    simp
  rw [hdata, readRecord, if_pos rfl, if_neg (by simp [haddr, henc]; omega)]
  have h20 : ∀ x : Bytes, (addr.1 ++ x).drop 20 = x := fun x => List.drop_left' haddr
  have h21 : ∀ (y : UInt8) (x : Bytes), (addr.1 ++ y :: x).drop 21 = x := by
    intro y x
    rw [show 21 = 20 + 1 from rfl, drop_append_of_length haddr]
    rfl
  have hend : (addr.1 ++ (if present then 1 else 0) :: (encodeAccount [] a ++ rest)).drop
      (21 + accountSize) = rest := by
    rw [← List.drop_drop, h21, List.drop_left' henc]
  rw [h21, List.take_left' henc, decodeAccount_encodeAccount, copyFixed_append, h20, hend]
  cases present <;> rfl

theorem readRecord_slot (addr : Address) (k v : Hash) (rest : Bytes) :
    readRecord 2 (addr.1 ++ (k.1 ++ v.1) ++ rest) = .ok (.slot addr k v, rest) := by
  have haddr : addr.1.length = 20 := addr.2
  have hk : k.1.length = 32 := k.2
  have hv : v.1.length = 32 := v.2
  have hdata : addr.1 ++ (k.1 ++ v.1) ++ rest = addr.1 ++ (k.1 ++ (v.1 ++ rest)) := by simp
  have h20 : (addr.1 ++ (k.1 ++ (v.1 ++ rest))).drop 20 = k.1 ++ (v.1 ++ rest) :=
    List.drop_left' haddr
  have h52 : (addr.1 ++ (k.1 ++ (v.1 ++ rest))).drop 52 = v.1 ++ rest := by
    rw [show 52 = 20 + 32 from rfl, drop_append_of_length haddr, List.drop_left' hk]
  have h84 : (addr.1 ++ (k.1 ++ (v.1 ++ rest))).drop 84 = rest := by
    rw [show 84 = 20 + (32 + 32) from rfl, drop_append_of_length haddr, drop_append_of_length hk,
      List.drop_left' hv]
  rw [hdata, readRecord, if_neg (by decide), if_pos rfl, if_neg (by simp [haddr, hk, hv]; omega),
    h20, h52, h84, copyFixed_append, copyFixed_append, copyFixed_append]

theorem readRecord_code (hash : Hash) {c : Bytes} (hc : c.length < 2 ^ 32) (rest : Bytes) :
    readRecord 3 (hash.1 ++ (beEncode 4 c.length ++ c) ++ rest) =
      if 2 ^ 32 ≤ 36 + c.length then .error .sliceBounds else .ok (.code hash c, rest) := by
  have hh : hash.1.length = 32 := hash.2
  have h4 : (beEncode 4 c.length).length = 4 := length_beEncode _ _
  have hdata : hash.1 ++ (beEncode 4 c.length ++ c) ++ rest =
      hash.1 ++ (beEncode 4 c.length ++ (c ++ rest)) := by simp
  have h32 : (hash.1 ++ (beEncode 4 c.length ++ (c ++ rest))).drop 32 =
      beEncode 4 c.length ++ (c ++ rest) := List.drop_left' hh
  have h36 : ∀ m, (hash.1 ++ (beEncode 4 c.length ++ (c ++ rest))).drop (36 + m) =
      (c ++ rest).drop m := by
    intro m
    rw [show 36 + m = 32 + (4 + m) by omega, drop_append_of_length hh, drop_append_of_length h4]
  have hl : beDecode (beEncode 4 c.length) = c.length := beDecode_beEncode_of_lt (by norm_num; omega)
  have hlen : (hash.1 ++ (beEncode 4 c.length ++ (c ++ rest))).length =
      36 + c.length + rest.length := by
    simp [hh, h4]
    omega
  rw [hdata, readRecord, if_neg (by decide), if_neg (by decide), if_pos rfl,
    if_neg (by rw [hlen]; omega)]
  dsimp only
  rw [h32, List.take_left' h4, hl, if_neg (by rw [hlen]; omega), copyFixed_append]
  have hrest := h36 c.length
  have hcode := h36 0
  rw [List.drop_left' rfl] at hrest
  rw [Nat.add_zero, List.drop_zero] at hcode
  rw [hrest, hcode, List.take_left' rfl]

theorem loadRecords_cons {tag : UInt8} {data : Bytes} (c : Cache) {r : Record} {rest : Bytes}
    (h : readRecord tag data = .ok (r, rest)) :
    loadRecords c (tag :: data) = loadRecords (c.insert r) rest := by
  rw [loadRecords]
  split
  · rename_i e he
    rw [h] at he
    cases he
  · rename_i r' rest' he
    rw [h] at he
    obtain ⟨rfl, rfl⟩ := Prod.mk.inj (Except.ok.inj he)
    rfl

theorem loadRecords_cons_error {tag : UInt8} {data : Bytes} (c : Cache) {e : CacheErr}
    (h : readRecord tag data = .error e) : loadRecords c (tag :: data) = .error e := by
  rw [loadRecords]
  split
  · rename_i e' he
    rw [h] at he
    rw [Except.error.inj he]
  · rename_i r rest he
    rw [h] at he
    cases he

/-- A record that was written is read back, unless its code is too long to slice. -/
theorem loadRecords_encode (c : Cache) {r : Record} (hr : r.Fits) (rest : Bytes) :
    (r.Sliced → loadRecords c (r.encode ++ rest) = loadRecords (c.insert r) rest) ∧
      (¬ r.Sliced → loadRecords c (r.encode ++ rest) = .error .sliceBounds) := by
  cases r with
  | account addr e =>
    exact ⟨fun _ => loadRecords_cons c (readRecord_account addr e rest), fun h => absurd trivial h⟩
  | slot addr k v =>
    exact ⟨fun _ => loadRecords_cons c (readRecord_slot addr k v rest), fun h => absurd trivial h⟩
  | code hash v =>
    have hread := readRecord_code hash hr rest
    refine ⟨fun hs => ?_, fun hs => ?_⟩
    · rw [if_neg (Nat.not_le.mpr hs)] at hread
      exact loadRecords_cons c hread
    · rw [if_pos (Nat.not_lt.mp hs)] at hread
      exact loadRecords_cons_error c hread

/-- Loading what was written inserts its records, or panics on long code. -/
theorem loadRecords_flatMap (rs : List Record) (hrs : ∀ r ∈ rs, r.Fits) (c : Cache) :
    loadRecords c (rs.flatMap Record.encode) = .ok (rs.foldl Cache.insert c) ∨
      loadRecords c (rs.flatMap Record.encode) = .error .sliceBounds := by
  induction rs generalizing c with
  | nil =>
    left
    rw [List.flatMap_nil, loadRecords]
    rfl
  | cons r rs ih =>
    obtain ⟨hok, hbad⟩ := loadRecords_encode c (hrs r (by simp)) (rs.flatMap Record.encode)
    rw [List.flatMap_cons]
    by_cases hs : r.Sliced
    · rw [hok hs]
      exact ih (fun r' hr' => hrs r' (List.mem_cons_of_mem _ hr')) (c.insert r)
    · exact Or.inr (hbad hs)

/-- The header decides whether the records are looked at. -/
theorem load_header (c : Cache) (block : UInt64) (body : Bytes) :
    c.load (magic ++ (beEncode 8 block.toNat ++ body)) =
      if block ≠ c.block then .error (.wrongBlock block c.block) else loadRecords c body := by
  have hm : magic.length = 8 := rfl
  have hb : (beEncode 8 block.toNat).length = 8 := length_beEncode _ _
  have htake : (magic ++ (beEncode 8 block.toNat ++ body)).take 8 = magic := List.take_left' hm
  have hlen : ¬ (magic ++ (beEncode 8 block.toNat ++ body)).length < 16 := by
    rw [List.length_append, List.length_append, hm, hb]
    omega
  have hblock : UInt64.ofNat (beDecode (((magic ++ (beEncode 8 block.toNat ++ body)).drop 8).take 8)) =
      block := by
    rw [List.drop_left' hm, List.take_left' hb, beDecode_beEncode_of_lt (uint64_toNat_lt block),
      UInt64.ofNat_toNat]
  have hrest : (magic ++ (beEncode 8 block.toNat ++ body)).drop 16 = body := by
    rw [show 16 = 8 + 8 from rfl, drop_append_of_length hm, List.drop_left' hb]
  unfold Cache.load
  rw [if_neg (not_or.mpr ⟨hlen, not_not.mpr htake⟩)]
  dsimp only
  rw [hblock, hrest]

theorem load_fileOf {c : Cache} (rs : List Record) (hrs : ∀ r ∈ rs, r.Fits) :
    c.load (fileOf c.block rs) = .ok (rs.foldl Cache.insert c) ∨
      c.load (fileOf c.block rs) = .error .sliceBounds := by
  rw [fileOf, load_header, if_neg (not_not.mpr rfl)]
  exact loadRecords_flatMap rs hrs c

end Flatstate.Suitecache
