import Flatstate.Suitecache.Cache

set_option autoImplicit false

/-!
# Suitecache: the round trip of the file

The records of the three maps stand one after the other behind a header, in whatever order Go
ranges over the maps, and nothing says how many there are.  A record is framed by its tag alone,
a code record by the length in front of its code.  Loading reads record after record, so a file
that ends inside a record is refused and one that ends between two records is not.
-/

namespace Flatstate.Suitecache

open Foundation Schema

/-- Two caches have the same three maps. -/
structure Cache.SameMaps (c c' : Cache) : Prop where
  accounts : ∀ addr, c.accounts.get addr = c'.accounts.get addr
  slots : ∀ k, c.slots.get k = c'.slots.get k
  code : ∀ hash, c.code.get hash = c'.code.get hash

/-! ## The maps come back -/

section Insert

variable (c : Cache)

theorem foldl_insert_accounts (as : List (Address × Acct)) :
    (as.map (fun e => Record.account e.1 e.2)).foldl Cache.insert c =
      { c with accounts := c.accounts.setAll as } := by
  induction as generalizing c with
  | nil => rfl
  | cons e as ih => exact ih (c.insert (.account e.1 e.2))

theorem foldl_insert_slots (ss : List ((Address × Hash) × Hash)) :
    (ss.map (fun e => Record.slot e.1.1 e.1.2 e.2)).foldl Cache.insert c =
      { c with slots := c.slots.setAll ss } := by
  induction ss generalizing c with
  | nil => rfl
  | cons e ss ih => exact ih (c.insert (.slot e.1.1 e.1.2 e.2))

theorem foldl_insert_code (cs : List (Hash × Bytes)) :
    (cs.map (fun e => Record.code e.1 e.2)).foldl Cache.insert c =
      { c with code := c.code.setAll cs } := by
  induction cs generalizing c with
  | nil => rfl
  | cons e cs ih => exact ih (c.insert (.code e.1 e.2))

end Insert

/-- Inserting the records into an empty cache, in any order `Close` may write them, gives the
maps back. -/
theorem Cache.Listing.sameMaps {c : Cache} {rs : List Record} (h : c.Listing rs) (block : UInt64)
    (attached : Bool) : (rs.foldl Cache.insert (Cache.new block attached)).SameMaps c := by
  obtain ⟨as, ss, cs, has, hss, hcs, rfl⟩ := h
  rw [List.foldl_append, List.foldl_append, foldl_insert_accounts, foldl_insert_slots,
    foldl_insert_code]
  exact ⟨Table.get_setAll_of_perm has, Table.get_setAll_of_perm hss, Table.get_setAll_of_perm hcs⟩

/-- The records of a cache with short code can all be sliced. -/
theorem Cache.Listing.sliced {c : Cache} {rs : List Record} (h : c.Listing rs)
    (hcode : ∀ hash v, c.code.get hash = some v → v.length < 2 ^ 32 - 36) {r : Record}
    (hr : r ∈ rs) : r.Sliced := by
  obtain ⟨as, ss, cs, -, -, hcs, rfl⟩ := h
  rcases List.mem_append.mp hr with hr | hr
  · obtain ⟨e, -, rfl⟩ := List.mem_map.mp hr
    trivial
  · rcases List.mem_append.mp hr with hr | hr
    · obtain ⟨e, -, rfl⟩ := List.mem_map.mp hr
      trivial
    · obtain ⟨e, he, rfl⟩ := List.mem_map.mp hr
      have hlen := hcode e.1 e.2 (Table.get_eq_some_iff.mpr (hcs.mem_iff.mp he))
      unfold Record.Sliced
      omega

/-! ## Records that are cut off -/

theorem Record.Sliced.fits {r : Record} (h : r.Sliced) : r.Fits := by
  cases r with
  | account addr e => trivial
  | slot addr k v => trivial
  | code hash c =>
    unfold Record.Sliced at h
    unfold Record.Fits
    omega

/-- A record that ends too early is refused. -/
theorem readRecord_cut {r : Record} (hr : r.Sliced) {tag : UInt8} {q : Bytes}
    (hq : tag :: q <+: r.encode) (hne : tag :: q ≠ r.encode) :
    readRecord tag q = .error .unexpectedEOF := by
  have hlen : (tag :: q).length < r.encode.length :=
    lt_of_le_of_ne hq.length_le fun heq => hne (hq.eq_of_length heq)
  rw [List.length_cons] at hlen
  unfold readRecord
  cases r with
  | account addr e =>
    obtain ⟨rfl, -⟩ := List.cons_prefix_cons.mp hq
    have haddr : addr.1.length = 20 := addr.2
    have hshort : q.length < 20 + 1 + accountSize := by
      simp only [Record.encode, List.length_cons, List.length_append, haddr, length_encodeAccount,
        List.length_nil] at hlen
      omega
    rw [if_pos rfl, if_pos hshort]
  | slot addr k v =>
    obtain ⟨rfl, -⟩ := List.cons_prefix_cons.mp hq
    have haddr : addr.1.length = 20 := addr.2
    have hshort : q.length < 20 + 32 + 32 := by
      simp only [Record.encode, List.length_cons, List.length_append, haddr, k.2, v.2] at hlen
      omega
    rw [if_neg (by decide), if_pos rfl, if_pos hshort]
  | code hash c =>
    obtain ⟨rfl, t, hbody⟩ := List.cons_prefix_cons.mp hq
    have hh : hash.1.length = 32 := hash.2
    have h4 : (beEncode 4 c.length).length = 4 := length_beEncode _ _
    have hshort : q.length < 36 + c.length := by
      simp only [Record.encode, List.length_cons, List.length_append, hh, h4] at hlen
      omega
    rw [if_neg (by decide), if_neg (by decide), if_pos rfl]
    by_cases h36 : q.length < 36
    · rw [if_pos h36]
    · -- the length in front of the code is there, and says that code is missing
      have hfits : c.length < 2 ^ 32 := hr.fits
      have hl : beDecode ((q.drop 32).take 4) = c.length := by
        have hdrop : (q ++ t).drop 32 = q.drop 32 ++ t :=
          List.drop_append_of_le_length (by omega)
        have htake : (q.drop 32 ++ t).take 4 = (q.drop 32).take 4 :=
          List.take_append_of_le_length (by rw [List.length_drop]; omega)
        rw [← htake, ← hdrop, hbody, List.drop_left' hh, List.take_left' h4,
          beDecode_beEncode_of_lt (by norm_num; omega)]
      rw [if_neg h36]
      dsimp only
      rw [hl, if_pos hshort]

/-- Records that were written are read, whatever comes behind them. -/
theorem loadRecords_append {rs : List Record} (hrs : ∀ r ∈ rs, r.Sliced) (c : Cache)
    (rest : Bytes) :
    loadRecords c (rs.flatMap Record.encode ++ rest) =
      loadRecords (rs.foldl Cache.insert c) rest := by
  induction rs generalizing c with
  | nil => rfl
  | cons r rs ih =>
    have hr := hrs r List.mem_cons_self
    rw [List.flatMap_cons, List.append_assoc, (loadRecords_encode c hr.fits _).1 hr]
    exact ih (fun r' hr' => hrs r' (List.mem_cons_of_mem _ hr')) (c.insert r)

theorem loadRecords_flatMap_sliced {rs : List Record} (hrs : ∀ r ∈ rs, r.Sliced) (c : Cache) :
    loadRecords c (rs.flatMap Record.encode) = .ok (rs.foldl Cache.insert c) := by
  have happ := loadRecords_append hrs c []
  rw [List.append_nil] at happ
  rw [happ, loadRecords]

/-- A front part of the records is a number of whole records, or it is refused. -/
theorem loadRecords_prefix {rs : List Record} (hrs : ∀ r ∈ rs, r.Sliced) (c : Cache) {p : Bytes}
    (hp : p <+: rs.flatMap Record.encode) :
    (∃ k, p = (rs.take k).flatMap Record.encode) ∨ ∃ e, loadRecords c p = .error e := by
  induction rs generalizing c p with
  | nil => exact Or.inl ⟨0, List.prefix_nil.mp hp⟩
  | cons r rs ih =>
    rw [List.flatMap_cons] at hp
    have hr := hrs r List.mem_cons_self
    have hrest : ∀ r' ∈ rs, r'.Sliced := fun r' hr' => hrs r' (List.mem_cons_of_mem _ hr')
    -- the first record is there as a whole, or the part ends inside it
    rcases List.prefix_or_prefix_of_prefix (List.prefix_append r.encode _) hp with hwhole | hcut
    · obtain ⟨q, rfl⟩ := hwhole
      rw [(loadRecords_encode c hr.fits q).1 hr]
      rcases ih hrest (c.insert r) ((List.prefix_append_right_inj _).mp hp) with ⟨k, rfl⟩ | herr
      · exact Or.inl ⟨k + 1, by rw [List.take_succ_cons, List.flatMap_cons]⟩
      · exact Or.inr herr
    · cases p with
      | nil => exact Or.inl ⟨0, rfl⟩
      | cons tag q =>
        by_cases heq : tag :: q = r.encode
        · exact Or.inl ⟨1, by rw [heq]; simp⟩
        · exact Or.inr ⟨_, loadRecords_cons_error c (readRecord_cut hr hcut heq)⟩

/-! ## The file -/

/-- A front part of the file is the header with a number of whole records, or it is refused. -/
theorem load_prefix {rs : List Record} (hrs : ∀ r ∈ rs, r.Sliced) (c : Cache) {p : Bytes}
    (hp : p <+: fileOf c.block rs) :
    (∃ k, p = fileOf c.block (rs.take k)) ∨ ∃ e, c.load p = .error e := by
  by_cases hshort : p.length < 16
  · right
    unfold Cache.load
    exact ⟨_, if_pos (Or.inl hshort)⟩
  · have hm : magic.length = 8 := rfl
    have hheader : (magic ++ beEncode 8 c.block.toNat).length = 16 := by
      rw [List.length_append, length_beEncode, hm]
    unfold fileOf at hp ⊢
    rw [← List.append_assoc] at hp
    have hwhole : magic ++ beEncode 8 c.block.toNat <+: p :=
      List.prefix_of_prefix_length_le (List.prefix_append _ _) hp (by omega)
    obtain ⟨q, rfl⟩ := hwhole
    rw [List.append_assoc, load_header, if_neg (not_not.mpr rfl)]
    rcases loadRecords_prefix hrs c ((List.prefix_append_right_inj _).mp hp) with ⟨k, rfl⟩ | herr
    · exact Or.inl ⟨k, rfl⟩
    · exact Or.inr herr

theorem load_fileOf_sliced {rs : List Record} (hrs : ∀ r ∈ rs, r.Sliced) (c : Cache) :
    c.load (fileOf c.block rs) = .ok (rs.foldl Cache.insert c) := by
  unfold fileOf
  rw [load_header, if_neg (not_not.mpr rfl)]
  exact loadRecords_flatMap_sliced hrs c

/-- The cache file round-trips.  Whatever the maps hold, and in whatever order `Close` ranges over
them, an empty cache of the same block loads the file and has the same three maps; a cache of
another block refuses it; and a front part of the file is accepted exactly when it ends behind
the header or behind a record. -/
theorem cache_file_round_trips {c : Cache} {rs : List Record} (hrs : c.Listing rs)
    (hcode : ∀ hash v, c.code.get hash = some v → v.length < 2 ^ 32 - 36) (attached : Bool) :
    c.Writes (fileOf c.block rs) ∧
    (∃ c', (Cache.new c.block attached).load (fileOf c.block rs) = .ok c' ∧ c'.SameMaps c) ∧
    (∀ block, block ≠ c.block →
      ∃ e, (Cache.new block attached).load (fileOf c.block rs) = .error e) ∧
    ∀ p, p <+: fileOf c.block rs →
      ((∃ c', (Cache.new c.block attached).load p = .ok c') ↔
        ∃ k, p = fileOf c.block (rs.take k)) := by
  have hsliced : ∀ r ∈ rs, r.Sliced := fun r hr => hrs.sliced hcode hr
  refine ⟨⟨rs, hrs, rfl⟩, ?_, fun block hblock => ?_, fun p hp => ?_⟩
  · exact ⟨_, load_fileOf_sliced hsliced (Cache.new c.block attached),
      hrs.sameMaps c.block attached⟩
  · refine ⟨.wrongBlock c.block block, ?_⟩
    unfold fileOf
    rw [load_header]
    exact if_pos (Ne.symm hblock)
  · constructor
    · rintro ⟨c', hok⟩
      rcases load_prefix hsliced (Cache.new c.block attached) hp with hwhole | ⟨e, herr⟩
      · exact hwhole
      · rw [hok] at herr
        cases herr
    · rintro ⟨k, rfl⟩
      have htake : ∀ r ∈ rs.take k, r.Sliced := fun r hr => hsliced r (List.mem_of_mem_take hr)
      exact ⟨_, load_fileOf_sliced htake (Cache.new c.block attached)⟩

namespace FileSample

/-- A cache with an account that is known not to exist, a slot and a code. -/
def cache : Cache where
  attached := true
  block := 7
  dirty := true
  accounts := Table.empty.set (FixedBytes.ofNat 20 1) (Account.zero, false)
  slots := Table.empty.set (FixedBytes.ofNat 20 2, FixedBytes.ofNat 32 3) (FixedBytes.ofNat 32 4)
  code := Table.empty.set (FixedBytes.ofNat 32 5) [96, 0]

def records : List Record :=
  [.account (FixedBytes.ofNat 20 1) (Account.zero, false),
    .slot (FixedBytes.ofNat 20 2) (FixedBytes.ofNat 32 3) (FixedBytes.ofNat 32 4),
    .code (FixedBytes.ofNat 32 5) [96, 0]]

theorem records_listing : cache.Listing records := ⟨_, _, _, .rfl, .rfl, .rfl, rfl⟩

end FileSample

open FileSample in
/-- The account that does not exist comes back, and the file without its last byte is refused. -/
theorem cache_file_round_trips_sample :
    (∃ c', (Cache.new 7 false).load (fileOf 7 records) = .ok c' ∧
      c'.accounts.get (FixedBytes.ofNat 20 1) = some (Account.zero, false)) ∧
    ¬ ∃ c', (Cache.new 7 false).load (fileOf 7 records).dropLast = .ok c' := by
  have hcode : ∀ hash v, cache.code.get hash = some v → v.length < 2 ^ 32 - 36 := by
    intro hash v hv
    obtain ⟨rfl, rfl⟩ : hash = FixedBytes.ofNat 32 5 ∧ v = [96, 0] := by
      simpa using List.mem_singleton.mp (Table.get_eq_some_iff.mp hv)
    decide
  obtain ⟨-, ⟨c', hload, hmaps⟩, -, hcut⟩ := cache_file_round_trips records_listing hcode false
  refine ⟨⟨c', hload, (hmaps.accounts _).trans (by decide +kernel)⟩, fun hok => ?_⟩
  obtain ⟨k, hk⟩ := (hcut _ (List.dropLast_prefix _)).mp hok
  have hlen := congrArg List.length hk
  rcases k with _ | _ | _ | k
  · exact absurd hlen (by decide +kernel)
  · exact absurd hlen (by decide +kernel)
  · exact absurd hlen (by decide +kernel)
  · have hall : records.take (k + 1 + 1 + 1) = records := List.take_of_length_le (by simp [records])
    rw [hall] at hlen
    exact absurd hlen (by decide +kernel)

end Flatstate.Suitecache
