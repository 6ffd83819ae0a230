import Flatstate.Sync.Schedule
import Mathlib.Data.List.Perm.Subperm

set_option autoImplicit false

/-!
# Sync: fresh loads and resumed ones

A load that is not interrupted is complete.  So is one that is resumed any number of times, as
long as every run splits a giant at the same key; the comment at `splitAfter` asks for the
constants to be kept for that reason.  But the key is where the warm-up stopped, and with the
same constants that still depends on how many leaves the peers put into a response.
-/

namespace Flatstate.Sync

open Foundation Schema Store

variable {c : Config} {x : Chain} {es : List Event}

/-! ## The buffer -/

/-- The buffer is always short of a chunk. -/
theorem Reached.buffer {site : Site} (h : Reached c x es site) {s : Load}
    (hs : site = .running s) : s.bl.ops.length < baselineChunk := by
  have hflush : ∀ s : Load, s.flush.bl.ops.length < baselineChunk := by
    intro s
    rw [Load.flush_eq]
    exact Nat.two_pow_pos 16
  have hload : ∀ (s : Load) (r : LoadRow), (s.load r).bl.ops.length < baselineChunk := by
    intro s r
    rw [Load.load, Baseline.load, Baseline.add]
    dsimp only
    split
    · rw [Baseline.flush_true]
      exact Nat.two_pow_pos 16
    · rename_i hlt
      exact not_le.mp hlt
  induction h generalizing s with
  | fresh => cases hs
  | begin_ _ hd hbegin ih =>
    obtain rfl := Site.running.inj hs
    have hops := (beginRun_idle hbegin).2.1
    rw [Load.ops, List.append_eq_nil_iff] at hops
    rw [hops.1]
    exact Nat.two_pow_pos 16
  | cut _ ih => cases hs
  | @step es s₀ s' ev hreach hstep ih =>
    obtain rfl := Site.running.inj hs
    have hold := ih rfl
    cases hstep with
    | add hcur hrows => exact hload s₀ _
    | @applied b hcur hrows hbarrier => cases hb : b.final <;> exact hold
    | fenced hphase hcur hrows hbarrier => exact hflush _
    | sweep hphase hcur hwrites hmissing hrows => exact hflush s₀
    | swept hphase hcur hwrites => exact hload s₀ _
    | finish hphase hfinish =>
      obtain ⟨rfl, -⟩ := Baseline.finish_ok hfinish
      exact Nat.two_pow_pos 16
    | _ => exact hold

/-- Of more slots than the buffer holds one is not in it. -/
theorem exists_unbuffered (a : Hash) {f : Nat → Hash} {n : Nat} {ops : List BlOp}
    (hf : ∀ i < n, ∀ j < n, f i = f j → i = j) (hlen : ops.length < n) :
    ∃ i < n, ∀ op ∈ ops, op.key ≠ (Row.baseSlot a (f i)).key := by
  by_contra hcon
  push Not at hcon
  have hnodup : ((List.range n).map (fun i => (Row.baseSlot a (f i)).key)).Nodup := by
    refine List.Nodup.map_on (fun i hi j hj heq => ?_) List.nodup_range
    refine hf i (List.mem_range.mp hi) j (List.mem_range.mp hj) ?_
    exact (Row.baseSlot.inj (Row.key_inj.mp heq)).2
  have hsub : (List.range n).map (fun i => (Row.baseSlot a (f i)).key) ⊆ ops.map BlOp.key := by
    intro key hkey
    obtain ⟨i, hi, rfl⟩ := List.mem_map.mp hkey
    obtain ⟨op, hop, heq⟩ := hcon i (List.mem_range.mp hi)
    exact heq ▸ List.mem_map_of_mem hop
  have hle := (hnodup.subperm hsub).length_le
  rw [List.length_map, List.length_map, List.length_range] at hle
  omega

/-- A key no buffered write is about has its committed value. -/
theorem get_foldl_of_ne {ops : List BlOp} {k : Bytes} (e : Env) (h : ∀ op ∈ ops, op.key ≠ k) :
    (ops.foldl BlOp.run e).get k = e.get k := by
  refine foldl_keeps (P := fun e' : Env => e'.get k = e.get k) rfl h ?_
  rintro e' op hne heq
  rw [BlOp.run]
  cases op.val with
  | none => exact (OrdMap.get_del_of_ne _ (Ne.symm hne)).trans heq
  | some v => exact (OrdMap.get_put_of_ne _ v (Ne.symm hne)).trans heq

namespace Giants

/-! ## A sample chain -/

/-- Leaves under the 32-byte forms of numbers. -/
def leavesOf (ns : List Nat) (hs : ns.Pairwise (· < ·)) (hb : ∀ n ∈ ns, n < 256 ^ 32) : Leaves where
  list := ns.map (fun n => (beEncode 32 n, [1]))
  sorted := by
    rw [List.pairwise_map]
    refine hs.imp_of_mem fun {m n} hm hn hlt => ?_
    refine (beDecode_lt_iff (by rw [length_beEncode, length_beEncode])).mp ?_
    rwa [beDecode_beEncode_of_lt (hb m hm), beDecode_beEncode_of_lt (hb n hn)]
  width := by
    intro l hl
    obtain ⟨n, -, rfl⟩ := List.mem_map.mp hl
    exact length_beEncode _ _

def addr : Hash := FixedBytes.ofNat 32 0

def root : Hash := FixedBytes.ofNat 32 7

def account : StateAccount := ⟨1, none, root, []⟩

/-- The only account, with a given storage trie. -/
def chain (t : Leaves) : Chain where
  trie r _ := if r = Hash.zero then leavesOf [0] (by decide) (by decide +kernel) else t
  code _ := none
  rlpAccount _ := some account
  rlpSplit _ := some [1]
  keccak _ := Hash.zero
  emptyRoot := FixedBytes.ofNat 32 1

/-- Split after one response, in two. -/
def config : Config := { height := 5, root := Hash.zero, workers := 1, splitAfter := 1, splitWays := 2 }

theorem root_ne : root ≠ Hash.zero ∧ root ≠ FixedBytes.ofNat 32 1 := by decide +kernel

theorem trie_root (t : Leaves) (a : Hash) : (chain t).trie root a = t := by
  unfold chain
  dsimp only
  rw [if_neg root_ne.1]

theorem mem_accounts {t : Leaves} {l : Leaf} (hl : l ∈ ((chain t).accounts config).list) :
    l = (beEncode 32 0, [1]) := by
  have hlist : ((chain t).accounts config).list = [(beEncode 32 0, [1])] := rfl
  rw [hlist] at hl
  exact List.mem_singleton.mp hl

theorem solo (t : Leaves) : Solo config (chain t) addr root where
  account := ⟨account, (beEncode 32 0, [1]), List.mem_singleton_self _, by decide +kernel, rfl⟩
  only := by
    rintro a' acc ⟨l, hl, rfl, hacc⟩
    obtain rfl := mem_accounts hl
    obtain rfl := Option.some.inj hacc
    exact ⟨by decide +kernel, rfl, decide_eq_true root_ne, by decide +kernel⟩
  handled := by
    intro l hl claims
    obtain rfl := mem_accounts hl
    exact ⟨_, rfl⟩
  few := by
    have hlist : ((chain t).accounts config).list = [(beEncode 32 0, [1])] := rfl
    rw [hlist]
    decide
  slots := by
    intro m hm
    rw [slotLeafRow, if_neg (by rw [Leaves.width _ m hm]; simp)]
    exact ⟨_, rfl⟩

/-! ## Its runs -/

theorem agreed_of_fans {es : List Event} {k : Bytes}
    (h : ∀ a k', Event.fan a k' ∈ es → k' = k) : Agreed es :=
  fun a k₁ k₂ h₁ h₂ => (h a k₁ h₁).trans (h a k₂ h₂).symm

theorem since_nil (t : Leaves) : t.since [] = t.list :=
  List.filter_eq_self.mpr fun l _ => decide_eq_true (not_lt.mp (List.not_lt_nil l.1))

/-- A peer answers the first request with the first leaf only. -/
theorem warm_one {t : Leaves} {l : Leaf} {rest : List Leaf}
    (ht : t.list = (beEncode 32 0, [1]) :: l :: rest) :
    Serves t [] ⟨[(beEncode 32 0, [1])], true⟩ := by
  have hserve := serves_take t [] (n := 1) Nat.zero_lt_one (by decide)
  rw [since_nil, ht] at hserve
  simpa using hserve

/-- A peer answers the first request with the first two leaves. -/
theorem warm_two {t : Leaves} {l : Leaf} {rest : List Leaf}
    (ht : t.list = (beEncode 32 0, [1]) :: (beEncode 32 4, [1]) :: l :: rest) :
    Serves t [] ⟨[(beEncode 32 0, [1]), (beEncode 32 4, [1])], true⟩ := by
  have hserve := serves_take t [] (n := 2) Nat.two_pos (by decide)
  rw [since_nil, ht] at hserve
  simpa using hserve

theorem split_one : splitRange (beEncode 32 1) 2 =
    some [(beEncode 32 1, some (beEncode 32 (2 ^ 255))), (beEncode 32 (2 ^ 255 + 1), none)] := by
  decide +kernel

theorem split_five : splitRange (beEncode 32 5) 2 =
    some [(beEncode 32 5, some (beEncode 32 (2 ^ 255 + 2))), (beEncode 32 (2 ^ 255 + 3), none)] := by
  decide +kernel

theorem beEncode_lt {m n : Nat} (hn : n < 256 ^ 32) (h : m < n) : beEncode 32 m < beEncode 32 n := by
  refine (beDecode_lt_iff (by rw [length_beEncode, length_beEncode])).mp ?_
  rwa [beDecode_beEncode_of_lt (h.trans hn), beDecode_beEncode_of_lt hn]

/-- A run over the empty store, with the first response of one leaf. -/
theorem fresh_run {t : Leaves} {l : Leaf} {rest : List Leaf}
    (ht : t.list = (beEncode 32 0, [1]) :: l :: rest) :
    ∃ s₀ s, beginRun config ⟨0, false⟩ OrdMap.empty = .ok s₀ ∧
      Path config (chain t) s₀ [.walked, .fan addr (beEncode 32 1), .dequeue addr] s ∧
      s.phase = .returned ∧ row s.db (.storageQueue addr) = none := by
  obtain ⟨s₀, hbegin⟩ : ∃ s, beginRun config ⟨0, false⟩ OrdMap.empty = .ok s := ⟨_, rfl⟩
  have hreach : Reached config (chain t) [] (.running s₀) := .begin_ .fresh _ hbegin
  have hserve := warm_one ht
  rw [← trie_root t addr] at hserve
  obtain ⟨s, hpath, hret, hqueue, -⟩ := (solo t).run rfl hserve (by decide +kernel) split_one
    (by decide +kernel) hreach.inv hbegin (by simp)
  exact ⟨s₀, s, hbegin, hpath, hret, hqueue⟩

/-- Three leaves, one of them in the upper half. -/
def few : Leaves := leavesOf [0, 4, 2 ^ 255 + 1] (by decide +kernel) (by decide +kernel)

/-- The three leaves, and a chunk of leaves above them. -/
def manyKeys (n : Nat) : List Nat := [0, 4, 2 ^ 255 + 1] ++ (List.range n).map (2 ^ 255 + 3 + ·)

theorem manyKeys_sorted (n : Nat) : (manyKeys n).Pairwise (· < ·) := by
  refine List.pairwise_append.mpr ⟨by decide +kernel, ?_, fun m hm k hk => ?_⟩
  · rw [List.pairwise_map]
    exact List.pairwise_lt_range.imp fun h => Nat.add_lt_add_left h _
  · obtain ⟨i, -, rfl⟩ := List.mem_map.mp hk
    have hle : m ≤ 2 ^ 255 + 1 := by
      revert m
      decide +kernel
    omega

theorem manyKeys_lt (n : Nat) (hn : n ≤ 2 ^ 16) : ∀ k ∈ manyKeys n, k < 256 ^ 32 := by
  refine List.forall_mem_append.mpr ⟨by decide +kernel, fun k hk => ?_⟩
  · obtain ⟨i, hi, rfl⟩ := List.mem_map.mp hk
    have := List.mem_range.mp hi
    have hpow : 2 ^ 255 + 3 + 2 ^ 16 < 256 ^ 32 := by decide +kernel
    omega

def many : Leaves := leavesOf (manyKeys (2 ^ 16)) (manyKeys_sorted _) (manyKeys_lt _ le_rfl)

/-- The leaf that is lost. -/
def lost : Leaf := (beEncode 32 (2 ^ 255 + 1), [1])

/-- The leaves above it. -/
def above (i : Nat) : Leaf := (beEncode 32 (2 ^ 255 + 3 + i), [1])

theorem bytesToHash_lost : (bytesToHash lost.1).1 = lost.1 :=
  bytesToHash_of_length (length_beEncode _ _)

theorem bytesToHash_above (i : Nat) : (bytesToHash (above i).1).1 = (above i).1 :=
  bytesToHash_of_length (length_beEncode _ _)

theorem above_lt {i : Nat} (hi : i < 2 ^ 16) : 2 ^ 255 + 3 + i < 256 ^ 32 := by
  have hpow : 2 ^ 255 + 3 + 2 ^ 16 < 256 ^ 32 := by decide +kernel
  omega

theorem lost_mem : lost ∈ many.list := List.mem_map.mpr ⟨2 ^ 255 + 1, by simp [manyKeys], rfl⟩

theorem above_mem {i : Nat} (hi : i < 2 ^ 16) : above i ∈ many.list := by
  refine List.mem_map.mpr ⟨2 ^ 255 + 3 + i, List.mem_append_right _ ?_, rfl⟩
  exact List.mem_map_of_mem (List.mem_range.mpr hi)

theorem above_inj {i j : Nat} (hi : i < 2 ^ 16) (hj : j < 2 ^ 16)
    (h : bytesToHash (above i).1 = bytesToHash (above j).1) : i = j := by
  have hkey : (above i).1 = (above j).1 := by
    rw [← bytesToHash_above i, ← bytesToHash_above j, h]
  have hval := congrArg beDecode hkey
  unfold above at hval
  rw [beDecode_beEncode_of_lt (above_lt hi), beDecode_beEncode_of_lt (above_lt hj)] at hval
  omega

theorem queueRow_addr (t : Leaves) : QueueRow config (chain t) addr root := by
  obtain ⟨acc, hacc⟩ := (solo t).account
  obtain ⟨-, hroot, hst, -⟩ := (solo t).only _ _ hacc
  exact ⟨acc, hacc, hst, hroot.symm⟩

/-- The first run: the first response has two leaves, so the upper sub-range starts above the
leaf that will be lost.  Its walker gets through before the lower one starts, and the writer
commits a chunk.  Then the run is cut off. -/
theorem first_run : ∃ db, Reached config (chain many) [.walked, .fan addr (beEncode 32 5)] (.idle db) ∧
    row db (.baseSlot addr (bytesToHash lost.1)) = none ∧
    ∃ i < 2 ^ 16, row db (.baseSlot addr (bytesToHash (above i).1)) ≠ none := by
  obtain ⟨s₀, hbegin⟩ : ∃ s, beginRun config ⟨0, false⟩ OrdMap.empty = .ok s := ⟨_, rfl⟩
  have hreach : Reached config (chain many) [] (.running s₀) := .begin_ .fresh _ hbegin
  have hserve := warm_two (t := many) rfl
  rw [← trie_root many addr] at hserve
  obtain ⟨s₁, h₁, at₁, hspare₁⟩ := (solo many).task hreach.inv hbegin (by simp)
  obtain ⟨s₂, h₂, at₂, hspare₂⟩ := (solo many).split rfl rfl hserve (by decide +kernel) split_five at₁
  obtain ⟨s₃, h₃, at₃, hspare₃⟩ := At.open_
    (C := fun w => .fanned ([.opening (beEncode 32 5) (some (beEncode 32 (2 ^ 255 + 2)))] ++ w :: []))
    (fun _ _ _ _ => .sub) rfl (solo many).slots rfl (by simp : (none : Option Bytes) ≠ some []) at₂
  have hreach₃ : Reached config (chain many) [.walked, .fan addr (beEncode 32 5)] (.running s₃) :=
    hreach.path (h₁.trans (h₂.trans h₃))
  have hq := queueRow_addr many
  have hflow := at₃.acc.flow
  -- nothing has asked for the leaf
  have hlost : row s₃.view (.baseSlot addr (bytesToHash lost.1)) = none := by
    have hwarm : ∀ m ∈ [(beEncode 32 0, [1]), (beEncode 32 4, [(1 : UInt8)])],
        m.1 ≠ (bytesToHash lost.1).1 := by
      rw [bytesToHash_lost]
      decide +kernel
    have hbelow : (bytesToHash lost.1).1 < beEncode 32 (2 ^ 255 + 3) := by
      rw [bytesToHash_lost]
      decide +kernel
    rw [hspare₃ _ (Or.inl hbelow), hspare₂ _ hwarm, hspare₁ _ trivial]
    obtain ⟨hdb, hops, -⟩ := beginRun_idle hbegin
    rw [Load.view, hops, List.foldl_nil, ← hdb.row (by rw [Row.space]; decide)]
    exact row_empty _
  -- every leaf above is on its way, and the buffer is too short for all of them
  have habove : ∀ i < 2 ^ 16, SlotStored config (chain many) s₃.view addr (above i) := by
    intro i hi
    have hfans : ∀ a k, Event.fan a k ∈ [Event.walked, .fan addr (beEncode 32 5)] →
        k = beEncode 32 5 := by simp
    have htask := ((hreach₃.slots (Or.inr (agreed_of_fans hfans))).2.2 s₃ rfl).tasks _
      (at₃.tasks ▸ List.mem_singleton_self _)
    obtain ⟨k, ranges, hfan, -, hsplit, -, hws⟩ := htask
    rw [hfans _ k hfan] at hsplit
    obtain rfl := Option.some.inj (split_five.symm.trans hsplit)
    obtain ⟨-, hwalk⟩ := (List.forall₂_cons.mp (List.forall₂_cons.mp hws).2).1
    refine hwalk (above i) ⟨?_, ?_, fun b hb => by cases hb⟩
    · rw [trie_root]
      exact above_mem hi
    · rcases Nat.eq_zero_or_pos i with rfl | hpos
      · exact le_rfl
      · exact (beEncode_lt (above_lt hi) (by omega)).le
  have hops : s₃.ops = s₃.bl.ops := by
    simp [Load.ops, Load.rows, Load.queue, at₃.still.1, at₃.still.2, at₃.phase, Phase.rows]
  obtain ⟨i, hi, hkey⟩ := exists_unbuffered addr (f := fun i => bytesToHash (above i).1)
    (fun i hi j hj heq => above_inj hi hj heq) (hreach₃.buffer rfl)
  refine ⟨s₃.db, .cut hreach₃, ?_, i, hi, ?_⟩
  · by_contra hne
    obtain ⟨m, hm, hmkey, hs⟩ := hflow.exact.slotStored hq hne
    obtain ⟨r, hr, hhas⟩ := hs.foldl hq hm hflow.genuine
    rw [Has, slotLeafRow_target hr, hmkey, bytesToHash_lost] at hhas
    obtain ⟨content, -, rfl⟩ := slotLeafRow_shape hr
    cases hlost.symm.trans hhas
  · obtain ⟨r, hr, hhas⟩ := habove i hi
    obtain ⟨content, -, rfl⟩ := slotLeafRow_shape hr
    rw [Has, slotLeafRow_target hr, Load.view, hops, row, get_foldl_of_ne _ hkey] at hhas
    rw [row, hhas]
    simp [LoadRow.value]

end Giants

/-! ## Resumed loads -/

/-- Any number of runs, each cut off anywhere, in all of which an account's trie is split at one
key, or which do without watermarks: once phase 1 is done, an account without a queue row is
complete.  A watermark that a sub-range walk takes has every leaf of the range up to it
committed. -/
theorem missing_queue_row_complete {site : Site} (h : Reached c x es site)
    (hag : c.noStorageResume = true ∨ Agreed es) :
    (Event.walked ∈ es → ∀ a acc, IsAccount c x a acc → x.hasStorage acc = true →
      row site.db (.storageQueue a) = none →
      ∀ m ∈ (x.trie acc.root a).list, SlotStored c x site.db a m) ∧
    ∀ s, site = .running s → ∀ t ∈ s.tasks, ∀ ws, t.state = .fanned ws →
      ∀ lo hi, .opening lo hi ∈ ws → c.noStorageResume = false →
      ∀ wm, maxBaseSlot s.db t.addrHash lo hi = some wm →
      ∀ m, InRange (x.trie t.root t.addrHash) lo hi m → m.1 ≤ wm.1 →
        SlotStored c x s.db t.addrHash m := by
  obtain ⟨hslots, -, hrun⟩ := h.slots hag
  constructor
  · intro hwalked a acc hacc hst hqueue
    refine hslots.drained a acc.root ⟨acc, hacc, hst, rfl⟩ hqueue ?_
    obtain ⟨l, hl, rfl, -⟩ := hacc
    obtain ⟨acc', -, hhas⟩ := h.idle.walked hwalked l hl
    intro hnone
    cases hnone.symm.trans hhas
  · rintro s rfl t ht ws hws lo hi hw hresume wm hwm m hm hle
    have hacc : AccInv c x es s := h.inv
    have htask := (hrun s rfl).tasks t ht
    rw [hws] at htask
    obtain ⟨k, ranges, hfan, hlen, hsplit, -, hforall⟩ := htask
    obtain ⟨r, -, hr, rfl, rfl⟩ := exists_of_mem_right hforall.flip hw
    exact ((hrun s rfl).resumable hag (hacc.queue.tasks t ht).1).sub hfan hlen hsplit hr hresume
      hwm hm hle

open Giants in
/-- Both runs split the account at one key.  The first is cut off with leaves above the split
committed and one below them missing; the second commits that one too. -/
theorem missing_queue_row_complete_same_split :
    ∃ db s₀ s, Reached config (chain many) [.walked, .fan addr (beEncode 32 5)] (.idle db) ∧
      row db (.baseSlot addr (bytesToHash lost.1)) = none ∧
      beginRun config ⟨6, false⟩ db = .ok s₀ ∧
      Path config (chain many) s₀ [.walked, .fan addr (beEncode 32 5), .dequeue addr] s ∧
      ∀ m ∈ many.list, SlotStored config (chain many) s.db addr m := by
  obtain ⟨db, hreach, hlost, -⟩ := first_run
  obtain ⟨s₀, hbegin⟩ := hreach.begins (h := ⟨6, false⟩) rfl
  have hreach₀ := hreach.begin_ _ hbegin
  have hserve := warm_two (t := many) rfl
  rw [← trie_root many addr] at hserve
  obtain ⟨s, hpath, -, hqueue, -⟩ := (solo many).run rfl hserve (by decide +kernel) split_five
    (by decide +kernel) hreach₀.inv hbegin (by simp)
  refine ⟨db, s₀, s, hreach, hlost, hbegin, hpath, ?_⟩
  obtain ⟨acc, hacc⟩ := (solo many).account
  obtain ⟨-, hroot, hst, -⟩ := (solo many).only _ _ hacc
  have hag : Agreed ([.walked, .fan addr (beEncode 32 5)] ++
      [.walked, .fan addr (beEncode 32 5), .dequeue addr]) :=
    agreed_of_fans (k := beEncode 32 5) (by simp)
  have hall := (missing_queue_row_complete (hreach₀.path hpath) (Or.inr hag)).1 (by simp) addr acc
    hacc hst hqueue
  rwa [hroot, trie_root] at hall

open Giants in
/-- Two runs with the same constants, the first of which is cut off.  In the second the first
response has one leaf instead of two, so the upper sub-range starts at the lost leaf.  Its
walker finds a slot that the first run has committed further up, takes it for a watermark, and
resumes past the leaf.  The run returns nil with the account's queue row gone. -/
theorem watermark_skips_leaf :
    ∃ es s, Reached config (chain many) es (.running s) ∧ s.phase = .returned ∧
      Event.walked ∈ es ∧ IsAccount config (chain many) addr account ∧
      (chain many).hasStorage account = true ∧ row s.db (.storageQueue addr) = none ∧
      lost ∈ ((chain many).trie account.root addr).list ∧
      ¬ SlotStored config (chain many) s.db addr lost := by
  obtain ⟨db, hreach, hlost, i, hi, habove⟩ := first_run
  obtain ⟨s₀, hbegin⟩ := hreach.begins (h := ⟨6, false⟩) rfl
  have hreach₀ := hreach.begin_ _ hbegin
  obtain ⟨hdb, hops, -⟩ := beginRun_idle hbegin
  have hserve := warm_one (t := many) rfl
  rw [← trie_root many addr] at hserve
  obtain ⟨s, hpath, hret, hqueue, hkeep⟩ := (solo many).run rfl hserve (by decide +kernel) split_one
    (by decide +kernel) hreach₀.inv hbegin (by simp)
  have hrow : row s.db (.baseSlot addr (bytesToHash lost.1)) = none := by
    rw [hkeep]
    · rw [Load.view, hops, List.foldl_nil, ← hdb.row (by rw [Row.space]; decide)]
      exact hlost
    · rw [bytesToHash_lost]
      decide +kernel
    · rw [bytesToHash_lost]
      decide +kernel
    · rfl
    · refine ⟨bytesToHash (above i).1, ?_, ?_, ?_⟩
      · rw [bytesToHash_above]
        exact (beEncode_lt (above_lt hi) (by omega)).le
      · rw [bytesToHash_lost, bytesToHash_above]
        exact (beEncode_lt (above_lt hi) (by omega)).le
      · rw [← hdb.row (by rw [Row.space]; decide)]
        exact habove
  obtain ⟨acc, hacc⟩ := (solo many).account
  refine ⟨_, s, hreach₀.path hpath, hret, by simp, ?_, decide_eq_true root_ne, hqueue, ?_, ?_⟩
  · obtain ⟨l, hl, ha, hdec⟩ := hacc
    exact ⟨l, hl, ha, rfl⟩
  · exact (trie_root many addr).symm ▸ lost_mem
  · rintro ⟨r, hr, hhas⟩
    obtain ⟨content, -, rfl⟩ := slotLeafRow_shape hr
    rw [Has, slotLeafRow_target hr, hrow] at hhas
    cases hhas

/-! ## Fresh loads -/

/-- A run over the empty store that returns has committed the account leaves and nothing else
as accounts, the storage leaves and nothing else as slots, all code, and the mark, and it has
left no queue row, for any number of workers, any interleaving and any responses.  No walk goes
on forever. -/
theorem fresh_load_complete :
    (∀ (h : Handle) (s₀ s : Load) (es : List Event), beginRun c h OrdMap.empty = .ok s₀ →
      Path c x s₀ es s → s.phase = .returned →
      AccountsExact c x s.db ∧ SlotsExact c x s.db ∧
      (∀ a acc, IsAccount c x a acc → x.hasCode (bytesToHash acc.codeHash) = true →
        ∃ blob, x.code (bytesToHash acc.codeHash) = some blob ∧
          row s.db (.code (bytesToHash acc.codeHash)) = some blob) ∧
      (∀ a, row s.db (.storageQueue a) = none) ∧ row s.db .baselineComplete = some [1]) ∧
    (∀ i, WellFounded (fun w' w => ∃ out, SegStep c x i w out w')) ∧
    ∀ a root cap, WellFounded (fun w' w => ∃ db out, WalkStep c x db a root cap w out w') := by
  refine ⟨fun h s₀ s es hbegin hp hret => ?_, fun i => ?_, fun a root cap => ?_⟩
  · obtain ⟨hreach, hend⟩ := Path.ends hbegin hp
    have hacc : AccInv c x es s := hreach.inv
    have hstored := hacc.phase.walked (hacc.phase.past (by rw [hret]; rfl))
    obtain ⟨hops, hqueue, hmark⟩ := hend.done hret
    have hview : s.view = s.db := by rw [Load.view, hops, List.foldl_nil]
    have haccounts := accountsExact hacc.flow.exact hstored
    refine ⟨haccounts, slotsExact hacc.flow.exact fun a root hq => ?_, ?_, hqueue, hmark⟩
    · refine (Path.slots hbegin hp).drained a root hq (hqueue a) fun hnone => ?_
      obtain ⟨acc, hacc', -⟩ := hq
      rw [(haccounts a _).mpr ⟨acc, hacc', rfl⟩] at hnone
      cases hnone
    · intro a acc hacc' hcode
      obtain ⟨blob, hblob, hhas⟩ := hend.coded (by rw [hret]; rfl) a acc hacc' hcode
      rw [hview] at hhas
      exact ⟨blob, hblob, hhas⟩
  · refine Subrelation.wf ?_ (InvImage.wf (fun w => w.1.left (x.accounts c))
      (WellFounded.prod_lex Nat.lt_wfRel.wf Nat.lt_wfRel.wf))
    rintro w' w ⟨out, hstep⟩
    exact hstep.left_lt
  · refine Subrelation.wf ?_ (measure (Walker.left (x.trie root a))).wf
    rintro w' w ⟨db, out, hstep⟩
    exact hstep.left_lt

open Giants in
/-- The run that splits the account, from the empty store to its return. -/
theorem fresh_load_complete_few :
    ∃ s₀ s, beginRun config ⟨0, false⟩ OrdMap.empty = .ok s₀ ∧
      Path config (chain few) s₀ [.walked, .fan addr (beEncode 32 1), .dequeue addr] s ∧
      s.phase = .returned ∧ AccountsExact config (chain few) s.db ∧
      SlotsExact config (chain few) s.db ∧ row s.db .baselineComplete = some [1] := by
  obtain ⟨s₀, s, hbegin, hpath, hret, -⟩ := fresh_run (t := few) rfl
  obtain ⟨haccounts, hslots, -, -, hmark⟩ := fresh_load_complete.1 _ s₀ s _ hbegin hpath hret
  exact ⟨s₀, s, hbegin, hpath, hret, haccounts, hslots, hmark⟩

end Flatstate.Sync
