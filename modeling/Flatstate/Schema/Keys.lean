import Flatstate.Schema.Types

set_option autoImplicit false

/-!
# Schema: the key layout (`schema/schema.go`, D6)

Every row of the main environment lives in one byte-ordered key space.  The
first byte names the keyspace, the rest is fixed-width, and the history
keyspaces end in the bitwise-inverted block number, so that a forward seek on
`key || ^B` lands on the greatest write at or before `B`.

`Row` names the rows; `Row.key` is the layout.  The layout is injective
(`Row.key_inj`), so that writing one row never disturbs another, and
`exists_row_of_between` is the ordering fact the seek rests on.
-/

namespace Flatstate.Schema

open Foundation

/-! ## Keyspace prefixes -/

def prefMeta : UInt8 := 0x00
def prefAccount : UInt8 := 0x01
def prefSlot : UInt8 := 0x02
def prefDestruct : UInt8 := 0x03
def prefDiff : UInt8 := 0x04
def prefCode : UInt8 := 0x06
def prefBaseAccount : UInt8 := 0x07
def prefBaseSlot : UInt8 := 0x08
def prefStorageQueue : UInt8 := 0x09

/-- History genesis `S`. -/
def metaGenesis : Bytes := [prefMeta, 0x01]
/-- Presence means the baseline is complete. -/
def metaBaselineComplete : Bytes := [prefMeta, 0x02]
/-- Finalized height. -/
def metaFinalized : Bytes := [prefMeta, 0x03]
/-- Opaque loader resume cursor. -/
def metaBaselineProgress : Bytes := [prefMeta, 0x04]

/-! ## Key builders -/

/-- `AppendInvBlock`: append `^block` big-endian. -/
def appendInvBlock (dst : Bytes) (block : UInt64) : Bytes :=
  dst ++ beEncode 8 (~~~block).toNat

/-- `DecodeInvBlock`: the block number in the trailing 8 bytes of a key. -/
def decodeInvBlock (keyTail : Bytes) : UInt64 := ~~~(UInt64.ofNat (beDecode keyTail))

def appendAccountKey (dst : Bytes) (addr : Address) (block : UInt64) : Bytes :=
  appendInvBlock (dst ++ [prefAccount] ++ addr.1) block

def appendSlotKey (dst : Bytes) (addr : Address) (slot : Hash) (block : UInt64) : Bytes :=
  appendInvBlock (dst ++ [prefSlot] ++ addr.1 ++ slot.1) block

def appendDestructKey (dst : Bytes) (addr : Address) (block : UInt64) : Bytes :=
  appendInvBlock (dst ++ [prefDestruct] ++ addr.1) block

def appendDiffKey (dst : Bytes) (block : UInt64) : Bytes :=
  dst ++ [prefDiff] ++ beEncode 8 block.toNat

def appendCodeKey (dst : Bytes) (hash : Hash) : Bytes := dst ++ [prefCode] ++ hash.1

def appendBaseAccountKey (dst : Bytes) (addrHash : Hash) : Bytes :=
  dst ++ [prefBaseAccount] ++ addrHash.1

def appendBaseSlotKey (dst : Bytes) (addrHash slotHash : Hash) : Bytes :=
  dst ++ [prefBaseSlot] ++ addrHash.1 ++ slotHash.1

def appendStorageQueueKey (dst : Bytes) (addrHash : Hash) : Bytes :=
  dst ++ [prefStorageQueue] ++ addrHash.1

/-! ## Rows -/

/-- A row that carries a block number: one history per account, per slot and per
destructed address. -/
inductive Track where
  | account (addr : Address)
  | slot (addr : Address) (slot : Hash)
  | destruct (addr : Address)
  deriving DecidableEq

/-- A row of the main environment. -/
inductive Row where
  | genesis
  | baselineComplete
  | finalized
  | baselineProgress
  /-- a history row: the track's value written at a block -/
  | history (track : Track) (block : UInt64)
  | diff (block : UInt64)
  | code (hash : Hash)
  | baseAccount (addrHash : Hash)
  | baseSlot (addrHash slotHash : Hash)
  | storageQueue (addrHash : Hash)
  deriving DecidableEq

/-- The key of a history row without its block number. -/
def Track.stem : Track → Bytes
  | .account addr => prefAccount :: addr.1
  | .slot addr s => prefSlot :: (addr.1 ++ s.1)
  | .destruct addr => prefDestruct :: addr.1

/-- The key of a history row. -/
def Track.key (t : Track) (block : UInt64) : Bytes :=
  match t with
  | .account addr => appendAccountKey [] addr block
  | .slot addr s => appendSlotKey [] addr s block
  | .destruct addr => appendDestructKey [] addr block

/-- The layout. -/
def Row.key : Row → Bytes
  | .genesis => metaGenesis
  | .baselineComplete => metaBaselineComplete
  | .finalized => metaFinalized
  | .baselineProgress => metaBaselineProgress
  | .history track block => track.key block
  | .diff block => appendDiffKey [] block
  | .code hash => appendCodeKey [] hash
  | .baseAccount addrHash => appendBaseAccountKey [] addrHash
  | .baseSlot addrHash slotHash => appendBaseSlotKey [] addrHash slotHash
  | .storageQueue addrHash => appendStorageQueueKey [] addrHash

theorem Track.key_eq (t : Track) (block : UInt64) :
    t.key block = t.stem ++ beEncode 8 (~~~block).toNat := by
  cases t <;>
    simp [Track.key, Track.stem, appendAccountKey, appendSlotKey, appendDestructKey,
      appendInvBlock]

/-! ## Inverted block numbers -/

/-- Every 8-byte tail is the inverted block it decodes to. -/
theorem beEncode_decodeInvBlock {z : Bytes} (h : z.length = 8) :
    beEncode 8 (~~~(decodeInvBlock z)).toNat = z := by
  have hlt := beDecode_lt z
  have hpow : (256 : Nat) ^ 8 = 2 ^ 64 := by norm_num
  rw [h, hpow] at hlt
  rw [decodeInvBlock, UInt64.not_not, UInt64.toNat_ofNat', Nat.mod_eq_of_lt hlt]
  have henc := beEncode_beDecode z
  rwa [h] at henc

/-- Larger blocks have smaller inverted tails. -/
theorem invBlock_le_iff (b b' : UInt64) :
    beEncode 8 (~~~b).toNat ≤ beEncode 8 (~~~b').toNat ↔ b' ≤ b := by
  rw [← beDecode_le_iff (by simp), beDecode_beEncode_of_lt (uint64_toNat_lt _),
    beDecode_beEncode_of_lt (uint64_toNat_lt _), UInt64.toNat_not, UInt64.toNat_not, UInt64.le_iff_toNat_le]
  have hsize : UInt64.size = 2 ^ 64 := rfl
  have h := b.toNat_lt
  have h' := b'.toNat_lt
  omega

/-! ## Injectivity of the layout -/

theorem beEncode8_inj {b b' : UInt64} :
    beEncode 8 b.toNat = beEncode 8 b'.toNat ↔ b = b' := by
  constructor
  · intro h
    have := congrArg beDecode h
    rw [beDecode_beEncode_of_lt (uint64_toNat_lt _),
      beDecode_beEncode_of_lt (uint64_toNat_lt _)] at this
    exact UInt64.toNat_inj.mp this
  · rintro rfl
    rfl

theorem Track.stem_inj {t t' : Track} : t.stem = t'.stem ↔ t = t' := by
  constructor
  · intro h
    cases t with
    | account a =>
      cases t' with
      | account a' => simpa [Track.stem, Subtype.ext_iff] using h
      | slot a' s' => simp [Track.stem, prefAccount, prefSlot] at h
      | destruct a' => simp [Track.stem, prefAccount, prefDestruct] at h
    | slot a s =>
      cases t' with
      | account a' => simp [Track.stem, prefAccount, prefSlot] at h
      | slot a' s' =>
        simp only [Track.stem, List.cons.injEq, true_and] at h
        obtain ⟨h1, h2⟩ := List.append_inj h (a.2.trans a'.2.symm)
        rw [Subtype.ext h1, Subtype.ext h2]
      | destruct a' => simp [Track.stem, prefSlot, prefDestruct] at h
    | destruct a =>
      cases t' with
      | account a' => simp [Track.stem, prefAccount, prefDestruct] at h
      | slot a' s' => simp [Track.stem, prefSlot, prefDestruct] at h
      | destruct a' => simpa [Track.stem, Subtype.ext_iff] using h
  · rintro rfl
    rfl

theorem Track.key_inj {t t' : Track} {b b' : UInt64} :
    t.key b = t'.key b' ↔ t = t' ∧ b = b' := by
  constructor
  · intro h
    rw [Track.key_eq, Track.key_eq] at h
    have hlen : t.stem.length = t'.stem.length := by
      have := congrArg List.length h
      simpa using this
    obtain ⟨h1, h2⟩ := List.append_inj h hlen
    refine ⟨Track.stem_inj.mp h1, ?_⟩
    have hn := beEncode8_inj.mp h2
    have := congrArg (~~~ ·) hn
    simpa using this
  · rintro ⟨rfl, rfl⟩
    rfl

/-- The keyspace of a track. -/
def Track.space : Track → UInt8
  | .account _ => prefAccount
  | .slot _ _ => prefSlot
  | .destruct _ => prefDestruct

/-- The keyspace of a row: the first byte of its key. -/
def Row.space : Row → UInt8
  | .genesis | .baselineComplete | .finalized | .baselineProgress => prefMeta
  | .history t _ => t.space
  | .diff _ => prefDiff
  | .code _ => prefCode
  | .baseAccount _ => prefBaseAccount
  | .baseSlot _ _ => prefBaseSlot
  | .storageQueue _ => prefStorageQueue

/-- The key of a row after its keyspace byte. -/
def Row.rest : Row → Bytes
  | .genesis => [0x01]
  | .baselineComplete => [0x02]
  | .finalized => [0x03]
  | .baselineProgress => [0x04]
  | .history t b => t.stem.tail ++ beEncode 8 (~~~b).toNat
  | .diff b => beEncode 8 b.toNat
  | .code h | .baseAccount h | .storageQueue h => h.1
  | .baseSlot h h' => h.1 ++ h'.1

theorem Row.key_eq (r : Row) : r.key = r.space :: r.rest := by
  cases r with
  | history t b =>
    rw [Row.key, Track.key_eq]
    cases t <;> rfl
  | _ => rfl

/-- The rows of a history keyspace are the history rows. -/
theorem Row.history_of_space {r : Row} {t : Track} (h : r.space = t.space) :
    ∃ t' b, r = .history t' b := by
  cases r with
  | history t' b => exact ⟨t', b, rfl⟩
  | _ => cases t <;> exact absurd h (by simp only [Row.space, Track.space]; decide)

/-- No two rows share a key. -/
theorem Row.key_inj {r r' : Row} : r.key = r'.key ↔ r = r' := by
  constructor
  · intro h
    have hkey := h
    rw [Row.key_eq, Row.key_eq, List.cons.injEq] at h
    obtain ⟨hs, hr⟩ := h
    -- rows of two keyspaces are told apart by the first byte, rows of one by the rest
    cases r with
    | history t b =>
      obtain ⟨t', b', rfl⟩ := Row.history_of_space hs.symm
      obtain ⟨rfl, rfl⟩ := Track.key_inj.mp hkey
      rfl
    | baseSlot a s =>
      cases r' with
      | history t' b' => cases t' <;> exact absurd hs (by simp only [Row.space, Track.space]; decide)
      | baseSlot a' s' =>
        obtain ⟨h1, h2⟩ := List.append_inj hr (a.2.trans a'.2.symm)
        rw [Subtype.ext h1, Subtype.ext h2]
      | _ => exact absurd hs (by simp only [Row.space]; decide)
    | _ =>
      cases r' with
      | history t' b' => cases t' <;> exact absurd hs (by simp only [Row.space, Track.space]; decide)
      | _ =>
        first
          | exact absurd hs (by simp only [Row.space]; decide)
          | simp_all [Row.rest, beEncode8_inj, Subtype.ext_iff]
  · rintro rfl
    rfl

/-! ## Key lengths and the order of history rows -/

/-- The length of every key of a keyspace. -/
def spaceLen (p : UInt8) : Nat :=
  if p = prefMeta then 2
  else if p = prefAccount ∨ p = prefDestruct then 29
  else if p = prefSlot then 61
  else if p = prefDiff then 9
  else if p = prefBaseSlot then 65
  else 33

theorem Row.length_key (r : Row) : r.key.length = spaceLen r.space := by
  cases r with
  | history t b =>
    rw [Row.key, Track.key_eq, List.length_append, length_beEncode]
    cases t with
    | account a | destruct a => rw [Track.stem, List.length_cons, a.2]; rfl
    | slot a s => rw [Track.stem, List.length_cons, List.length_append, a.2, s.2]; rfl
  | genesis | baselineComplete | finalized | baselineProgress => rfl
  | diff b => rw [Row.key_eq, List.length_cons, Row.rest, length_beEncode]; rfl
  | code h | baseAccount h | storageQueue h =>
    rw [Row.key_eq, List.length_cons, Row.rest, h.2]; rfl
  | baseSlot h h' =>
    rw [Row.key_eq, List.length_cons, Row.rest, List.length_append, h.2, h'.2]; rfl

/-- A row whose key lies between two keys of one track is a row of that track. -/
theorem exists_block_of_between {t : Track} {r : Row} {at_ b : UInt64}
    (h1 : t.key at_ ≤ r.key) (h2 : r.key ≤ t.key b) :
    ∃ b', r = .history t b' ∧ b' ≤ at_ ∧ b ≤ b' := by
  rw [Track.key_eq] at h1 h2
  obtain ⟨z, hz, hz1, hz2⟩ := exists_append_of_between t.stem h1 h2
  have hlen : z.length = 8 := by
    have hr := r.length_key
    have hspace : r.space = (Row.history t 0).space := by
      rw [Row.key_eq] at hz
      cases t <;> exact (List.cons.inj hz).1
    have ht := (Row.history t 0).length_key
    rw [Row.key, Track.key_eq, List.length_append, length_beEncode] at ht
    rw [hz, List.length_append, hspace] at hr
    omega
  have hzb := beEncode_decodeInvBlock hlen
  refine ⟨decodeInvBlock z, ?_, ?_, ?_⟩
  · apply Row.key_inj.mp
    rw [hz, Row.key, Track.key_eq, hzb]
  · rw [← hzb] at hz1
    exact (invBlock_le_iff _ _).mp hz1
  · rw [← hzb] at hz2
    exact (invBlock_le_iff _ _).mp hz2

theorem Track.key_le_iff (t : Track) (b b' : UInt64) : t.key b ≤ t.key b' ↔ b' ≤ b := by
  rw [Track.key_eq, Track.key_eq, append_le_append_left, invBlock_le_iff]

theorem Track.take_key (t : Track) (b : UInt64) : (t.key b).take ((t.key b).length - 8) = t.stem := by
  rw [Track.key_eq, List.length_append, length_beEncode, Nat.add_sub_cancel, List.take_left]

theorem Track.length_key_eq (t : Track) (b b' : UInt64) : (t.key b).length = (t.key b').length := by
  simp [Track.key_eq]

end Flatstate.Schema
