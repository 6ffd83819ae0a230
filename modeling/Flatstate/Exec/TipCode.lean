import Flatstate.Exec.Split

set_option autoImplicit false

/-!
# Exec: code at the tip (`mem/mem.go`, `follower/exec/statedb.go`)

An account read of the tip view goes through the unfinalized layers; `State.Code` does not:
it asks the base, the side buffer and the store.  What the first two have cached is what the
store had, so `State.Code` is `DB.GetCode`.  A contract that is deployed in a layer is visible
and its code is not, until the block is committed.  The executor's own view finds it.
-/

namespace Flatstate.Exec

open Foundation Schema Capture Store
open Mem (Extends)

/-! ## Code of a chain -/

/-- Whether a code hash stands for code; the empty-code hash is the hash of no bytes. -/
def HasCode (keccak : Bytes → Hash) (hash : Hash) : Prop := hash ≠ Hash.zero ∧ hash ≠ keccak []

/-- The code of every account of a state is known. -/
def Covers (keccak : Bytes → Hash) (codes : Hash → Option Bytes) (σ : State) : Prop :=
  ∀ a (acct : Account), σ (.account a) = (some acct : Option Account) →
    HasCode keccak acct.codeHash → codes acct.codeHash ≠ none

/-- Code is content-addressed: what is known is the code of its hash. -/
def Addressed (code : Hash → Bytes) (codes : Hash → Option Bytes) : Prop :=
  ∀ h c, codes h = some c → c = code h

/-- A block carries the code of the code hashes it sets, unless the account had the hash
before or the code is known. -/
structure Carries (keccak : Bytes → Hash) (code : Hash → Bytes) (codes : Hash → Option Bytes)
    (σ : State) (b : Batch) : Prop where
  addressed : ∀ h c, Op.code h c ∈ b.ops → c = code h
  carried : ∀ a acct, Op.account a acct ∈ b.ops → HasCode keccak acct.codeHash →
    (∃ old : Account, σ (.account a) = (some old : Option Account) ∧ old.codeHash = acct.codeHash) ∨
      foldCodes [b] codes acct.codeHash ≠ none

/-- The blocks of a chain do. -/
def CarriesAll (keccak : Bytes → Hash) (code : Hash → Bytes) (codes : Hash → Option Bytes)
    (σ : State) : List Batch → Prop
  | [] => True
  | b :: bs =>
    Carries keccak code codes σ b ∧ CarriesAll keccak code (foldCodes [b] codes) (b.apply σ) bs

section Chain

variable {keccak : Bytes → Hash} {code : Hash → Bytes} {codes : Hash → Option Bytes} {σ : State}

theorem foldl_addCode_ne_none_iff (ops : List Op) (codes : Hash → Option Bytes) (hash : Hash) :
    ops.foldl addCode codes hash ≠ none ↔ codes hash ≠ none ∨ ∃ c, Op.code hash c ∈ ops := by
  induction ops generalizing codes with
  | nil => simp
  | cons op ops ih =>
    rw [List.foldl_cons, ih]
    cases op with
    | code h c =>
      by_cases heq : hash = h
      · subst heq
        simp [addCode]
      · simp [addCode, heq]
    | _ => simp [addCode]

theorem foldCodes_ne_none_iff (bs : List Batch) (codes : Hash → Option Bytes) (hash : Hash) :
    foldCodes bs codes hash ≠ none ↔
      codes hash ≠ none ∨ ∃ b ∈ bs, ∃ c, Op.code hash c ∈ b.ops := by
  rw [foldCodes, foldl_addCode_ne_none_iff]
  refine or_congr_right ?_
  simp only [List.mem_flatMap]
  constructor
  · rintro ⟨c, b, hb, hc⟩
    exact ⟨b, hb, c, hc⟩
  · rintro ⟨b, hb, c, hc⟩
    exact ⟨c, b, hb, hc⟩

theorem Addressed.foldl_addCode {ops : List Op} (h : Addressed code codes)
    (hops : ∀ h c, Op.code h c ∈ ops → c = code h) : Addressed code (ops.foldl addCode codes) := by
  induction ops generalizing codes with
  | nil => exact h
  | cons op ops ih =>
    refine ih (fun k c hc => ?_) (fun k c hc => hops k c (List.mem_cons_of_mem _ hc))
    cases op with
    | code k' c' =>
      by_cases heq : k = k'
      · subst heq
        obtain rfl : c' = c := by simpa [addCode] using hc
        exact hops k c' (by simp)
      · exact h k c (by simpa [addCode, heq] using hc)
    | _ => exact h k c hc

theorem CarriesAll.ops {bs : List Batch} (hb : CarriesAll keccak code codes σ bs) :
    ∀ h c, Op.code h c ∈ bs.flatMap Batch.ops → c = code h := by
  induction bs generalizing codes σ with
  | nil => simp
  | cons b bs ih =>
    intro h c hc
    rw [List.flatMap_cons] at hc
    exact (List.mem_append.mp hc).elim (hb.1.addressed h c) (ih hb.2 h c)

theorem CarriesAll.addressed {bs : List Batch} (hb : CarriesAll keccak code codes σ bs)
    {known : Hash → Option Bytes} (h : Addressed code known) : Addressed code (foldCodes bs known) :=
  h.foldl_addCode hb.ops

theorem CarriesAll.append {bs cs : List Batch} :
    CarriesAll keccak code codes σ (bs ++ cs) ↔
      CarriesAll keccak code codes σ bs ∧
        CarriesAll keccak code (foldCodes bs codes) (foldBatches bs σ) cs := by
  induction bs generalizing codes σ with
  | nil => exact ⟨fun h => ⟨trivial, h⟩, fun h => h.2⟩
  | cons b bs ih =>
    have hfold : foldCodes (b :: bs) codes = foldCodes bs (foldCodes [b] codes) :=
      foldCodes_append [b] bs codes
    rw [List.cons_append, CarriesAll, CarriesAll, ih, hfold, and_assoc]
    rfl

/-- An account after some ops is one of them, or was there before. -/
theorem account_of_postOf {ops : List Op} {a : Address} {acct : Account}
    (h : (postOf ops).apply σ (.account a) = (some acct : Option Account)) :
    Op.account a acct ∈ ops ∨ σ (.account a) = (some acct : Option Account) := by
  induction ops using List.reverseRecOn with
  | nil => exact Or.inr h
  | append_singleton ops op ih =>
    rw [Diff.apply, postOf_concat] at h
    cases hop : op.post (.account a) with
    | none =>
      rw [hop, Option.none_or] at h
      exact (ih h).imp_left (List.mem_append_left [op])
    | some v =>
      rw [hop, Option.some_or, Option.getD_some] at h
      subst h
      left
      cases op with
      | account a' acct' =>
        rw [Op.post] at hop
        split at hop
        · rename_i heq
          obtain rfl := Option.some.inj (Option.some.inj hop)
          subst heq
          simp
        · cases hop
      | destruct a' =>
        rw [Op.post] at hop
        split at hop
        · cases hop
        · cases hop
      | _ => cases hop

/-- A block keeps the code covered. -/
theorem Covers.apply (h : Covers keccak codes σ) {b : Batch} (hb : Carries keccak code codes σ b) :
    Covers keccak (foldCodes [b] codes) (b.apply σ) := by
  intro a acct hacct hH
  have hold : codes acct.codeHash ≠ none → foldCodes [b] codes acct.codeHash ≠ none :=
    fun hne => (foldCodes_ne_none_iff [b] codes _).mpr (Or.inl hne)
  rw [Batch.apply_eq, Batch.diff_eq] at hacct
  rcases account_of_postOf hacct with hop | hσ
  · rcases hb.carried a acct hop hH with ⟨old, hσ, heq⟩ | hne
    · rw [← heq] at hold hH ⊢
      exact hold (h a old hσ hH)
    · exact hne
  · exact hold (h a acct hσ hH)

theorem Covers.foldBatches (h : Covers keccak codes σ) {bs : List Batch}
    (hb : CarriesAll keccak code codes σ bs) :
    Covers keccak (foldCodes bs codes) (foldBatches bs σ) := by
  induction bs generalizing codes σ with
  | nil => exact h
  | cons b bs ih =>
    have hfold : foldCodes (b :: bs) codes = foldCodes bs (foldCodes [b] codes) :=
      foldCodes_append [b] bs codes
    rw [hfold]
    exact ih (h.apply hb.1) hb.2

end Chain

/-! ## Cached code -/

/-- A view has cached some code, in its base or in a side buffer. -/
def Cached (st : Mem.State) (hash : Hash) (c : Bytes) : Prop :=
  st.base.code hash = some c ∨ ∃ sb ∈ st.buffers, sb.code hash = some c

section Cached

variable {keccak : Bytes → Hash} {h : Handle} {env : Env} {st : Mem.State} {hash : Hash} {c : Bytes}

/-- Changing the accounts and slots of a buffer changes no cached code. -/
theorem cached_modify {i : Nat} {f : Mem.SideBuffer → Mem.SideBuffer}
    (hf : ∀ sb, (f sb).code = sb.code) (hc : Cached { st with buffers := st.buffers.modify i f } hash c) :
    Cached st hash c := by
  refine hc.imp_right fun ⟨sb, hsb, hcode⟩ => ?_
  rcases Mem.mem_modify hsb with hsb | ⟨sb0, hsb0, rfl⟩
  · exact ⟨sb, hsb, hcode⟩
  · exact ⟨sb0, hsb0, (congrFun (hf sb0) hash).symm.trans hcode⟩

theorem cached_putAccount {i : Nat} {a : Address} {v : Option Account}
    (hc : Cached (st.putAccount i a v) hash c) : Cached st hash c :=
  cached_modify (f := fun sb => { sb with accounts := Function.update sb.accounts a (some v) })
    (fun _ => rfl) hc

theorem cached_putSlot {i : Nat} {a : Address} {s v : Hash} (hc : Cached (st.putSlot i a s v) hash c) :
    Cached st hash c :=
  cached_modify (f := fun sb =>
    { sb with slots := Function.update sb.slots a (Function.update (sb.slots a) s (some v)) })
    (fun _ => rfl) hc

theorem cached_account {i : Nat} {a : Address}
    (hc : Cached (st.account keccak h env i a).2 hash c) : Cached st hash c := by
  rw [Mem.State.account] at hc
  split at hc
  · exact hc
  · split at hc
    · exact hc
    · exact cached_putAccount hc

theorem cached_slotFetch {i : Nat} {a : Address} {s : Hash}
    (hc : Cached (st.slotFetch keccak h env i a s).2 hash c) : Cached st hash c := by
  rw [Mem.State.slotFetch] at hc
  split at hc
  · exact hc
  · split at hc
    · exact hc
    · exact cached_putSlot hc

theorem cached_accountFetch {i : Nat} {a : Address}
    (hc : Cached (st.accountFetch keccak h env i a).2 hash c) : Cached st hash c := by
  rw [Mem.State.accountFetch] at hc
  split at hc
  · exact hc
  · exact cached_putAccount hc

/-- Account and slot reads cache no code. -/
theorem cached_read {ok : Key → Prop} {q q' : List (Nat × Address)} {st' : Mem.State}
    (hs : Mem.ReadStep keccak h env ok st q st' q') (hc : Cached st' hash c) : Cached st hash c := by
  cases hs with
  | register =>
    refine hc.imp_right fun ⟨sb, hsb, hcode⟩ => ?_
    rcases List.mem_append.mp hsb with hsb | hsb
    · exact ⟨sb, hsb, hcode⟩
    · rw [List.mem_singleton.mp hsb] at hcode
      cases hcode
  | account i a hk => exact cached_account hc
  | slot i a s hk hn | slotFetch i a s hk hn => exact cached_slotFetch hc
  | accountFetch hq hk => exact cached_accountFetch hc

/-- A code read caches what the store has. -/
theorem cached_codeOf {i : Nat} {hash' : Hash} (hc : Cached (st.codeOf env i hash').2 hash c) :
    Cached st hash c ∨ row env (.code hash) = some c := by
  rw [Mem.State.codeOf] at hc
  split at hc
  · exact Or.inl hc
  · split at hc
    · exact Or.inl hc
    · split at hc
      · exact Or.inl hc
      · rename_i v hget
        rcases hc with hc | ⟨sb, hsb, hcode⟩
        · exact Or.inl (Or.inl hc)
        · rcases Mem.mem_modify hsb with hsb | ⟨sb0, hsb0, rfl⟩
          · exact Or.inl (Or.inr ⟨sb, hsb, hcode⟩)
          · by_cases heq : hash = hash'
            · subst heq
              obtain rfl : v = c := by simpa using hcode
              right
              rw [getCode] at hget
              split at hget
              · cases hget
              · rename_i hrow
                rw [← Except.ok.inj hget]
                exact hrow
            · refine Or.inl (Or.inr ⟨sb0, hsb0, ?_⟩)
              simpa [heq] using hcode

/-- A write phase moves the cached code into the base. -/
theorem cached_lockAndDrain (hc : Cached st.lockAndDrain hash c) : Cached st hash c := by
  have hfold : ∀ (sbs : List Mem.SideBuffer) (m : Mem.Map),
      (sbs.foldl Mem.Map.drain m).code hash = some c →
        m.code hash = some c ∨ ∃ sb ∈ sbs, sb.code hash = some c := by
    intro sbs
    induction sbs with
    | nil => exact fun m hm => Or.inl hm
    | cons sb sbs ih =>
      intro m hm
      rcases ih (m.drain sb) hm with hm | ⟨sb', hsb', hcode⟩
      · rw [Mem.drain_code] at hm
        exact (Option.or_eq_some_iff.mp hm).imp_right fun hcode => ⟨sb, by simp, hcode.2⟩
      · exact Or.inr ⟨sb', by simp [hsb'], hcode⟩
  rcases hc with hc | ⟨sb, hsb, hcode⟩
  · exact hfold st.buffers st.base hc
  · obtain ⟨_, -, rfl⟩ := List.mem_map.mp hsb
    cases hcode

theorem cached_preferenceReset {bs : List Batch} (hc : Cached (st.preferenceReset bs) hash c) :
    Cached st hash c := by
  have hfold : ∀ (bs : List Batch) (st : Mem.State),
      Cached (bs.foldl Mem.State.push st) hash c → Cached st hash c := by
    intro bs
    induction bs with
    | nil => exact fun st h => h
    | cons b bs ih => exact fun st h => ih (st.push b) h
  exact cached_lockAndDrain (hfold bs { st.lockAndDrain with layers := [] } hc)

theorem apply_code (m : Mem.Map) (b : Batch) : (m.apply b).code = m.code := by
  have hfold : ∀ (ops : List Op) (m : Mem.Map), (ops.foldl Mem.Map.applyOp m).code = m.code := by
    intro ops
    induction ops with
    | nil => exact fun m => rfl
    | cons op ops ih =>
      intro m
      rw [List.foldl_cons, ih, Mem.Map.applyOp]
      split
      · rfl
      · split <;> rfl
  exact hfold b.ops m

theorem cached_fold {b : Batch} {st' : Mem.State} (hf : Mem.Folds st b st')
    (hc : Cached st' hash c) : Cached st hash c := by
  apply cached_lockAndDrain
  rwa [Cached, hf.base, hf.buffers, apply_code] at hc

/-- While the caches agree with the store, `State.Code` is `DB.GetCode`. -/
theorem codeOf_fst (hcached : ∀ hash c, Cached st hash c → row env (.code hash) = some c) (i : Nat)
    (hash : Hash) : (st.codeOf env i hash).1 = getCode env hash := by
  have hget : ∀ c, Cached st hash c → getCode env hash = .ok c := by
    intro c hc
    have hrow : env.get (appendCodeKey [] hash) = some c := hcached hash c hc
    rw [getCode, hrow]
  rw [Mem.State.codeOf]
  split
  · rename_i c hc
    exact (hget c (Or.inl hc)).symm
  · split
    · rename_i c hc
      refine (hget c (Or.inr ?_)).symm
      rw [Mem.State.buffer, List.getD_eq_getElem?_getD] at hc
      cases hi : st.buffers[i]? with
      | none =>
        rw [hi] at hc
        cases hc
      | some sb =>
        rw [hi] at hc
        exact ⟨sb, List.mem_of_getElem? hi, hc⟩
    · split <;> simp [*]

end Cached

/-! ## Runs -/

/-- A process with a tip view, the writer or a reader: the store, the process's handle of it,
the view with the slot reads in flight, and the blocks committed to the store and folded into
the base since the start. -/
structure TipProcess where
  env : Env
  handle : Handle
  st : Mem.State
  inflight : List (Nat × Address)
  committed : List Batch
  folded : List Batch

section Runs

variable (keccak : Bytes → Hash) (base : Trie) (S : UInt64) (bs : List Batch)
  (codes : Hash → Option Bytes) (code : Hash → Bytes)

/-- What happens during a read phase: reads of the executors, and the writer's commits. -/
inductive PhaseStep : TipProcess → TipProcess → Prop where
  | read {p : TipProcess} {st : Mem.State} {q : List (Nat × Address)}
      (hs : Mem.ReadStep keccak p.handle p.env (fun _ => True) p.st p.inflight st q) :
      PhaseStep p { p with st := st, inflight := q }
  | code {p : TipProcess} (i : Nat) (hash : Hash) :
      PhaseStep p { p with st := (p.st.codeOf p.env i hash).2 }
  | sees {p : TipProcess} {h : Handle}
      (hh : h = (genesis p.handle p.env).2 ∨ h = (baselineComplete p.handle p.env).2) :
      PhaseStep p { p with handle := h }
  | commit {p : TipProcess} {b : Batch} (hb : Extends keccak base S (bs ++ p.committed) [b])
      (hc : Carries keccak code (foldCodes p.committed codes)
        (foldBatches (bs ++ p.committed) (base.state keccak)) b) :
      PhaseStep p { p with env := writeBlock p.env b, committed := p.committed ++ [b] }
  | setFinalized {p : TipProcess} (h : UInt64) :
      PhaseStep p { p with env := setFinalized p.env h }

/-- The runs of a process over a store with the blocks `bs` and the code `codes`.  The layers
are a chain on the folded blocks, related to the committed ones only by the fold: a block is
committed before it is folded. -/
inductive TipCodeRun : TipProcess → Prop where
  | init {w : Site} (hw : Built keccak base S w bs) (hcodes : ∀ h, row w.env (.code h) = codes h)
      {h : Handle} (hh : h = w.writer ∨ h = w.reader) (f : Option UInt64) :
      TipCodeRun ⟨w.env, h, Mem.State.new f, [], [], []⟩
  | phase {p p' : TipProcess} (hp : TipCodeRun p)
      (hs : PhaseStep keccak base S bs codes code p p') : TipCodeRun p'
  | applyBlock {p : TipProcess} (hp : TipCodeRun p) (hq : p.inflight = []) {b : Batch}
      (hb : Extends keccak base S (bs ++ (p.folded ++ p.st.batches)) [b])
      (hc : Carries keccak code (foldCodes (p.folded ++ p.st.batches) codes)
        (foldBatches (bs ++ (p.folded ++ p.st.batches)) (base.state keccak)) b) :
      TipCodeRun { p with st := p.st.applyBlock b }
  | preferenceReset {p : TipProcess} (hp : TipCodeRun p) (hq : p.inflight = [])
      {preferred : List Batch} (hb : Extends keccak base S (bs ++ p.folded) preferred)
      (hc : CarriesAll keccak code (foldCodes p.folded codes)
        (foldBatches (bs ++ p.folded) (base.state keccak)) preferred) :
      TipCodeRun { p with st := p.st.preferenceReset preferred }
  | finalize {p : TipProcess} (hp : TipCodeRun p) (hq : p.inflight = []) {b : Batch}
      (hb : p.st.batches.head? = some b) (hc : p.folded ++ [b] <+: p.committed) :
      TipCodeRun
        { p with st := (p.st.finalize b.block b.hash).2, folded := p.folded ++ [b] }

/-- What holds in every state of a run. -/
structure TipCodeInv (p : TipProcess) : Prop where
  refines : Refines keccak base S (bs ++ p.committed) p.env
  coherent : Coherent p.handle p.env
  contract : ContractChain (base.state keccak) (bs ++ p.committed)
  rows : ∀ h, row p.env (.code h) = foldCodes p.committed codes h
  layers : p.st.layers = p.st.batches.map Mem.newLayer
  folded : p.folded <+: p.committed
  pins : Mem.PinsLag (p.committed.map Batch.diff) (foldBatches bs (base.state keccak))
    p.folded.length p.st
  cached : ∀ hash c, Cached p.st hash c → row p.env (.code hash) = some c
  committed : CarriesAll keccak code codes (foldBatches bs (base.state keccak)) p.committed
  chain : CarriesAll keccak code codes (foldBatches bs (base.state keccak))
    (p.folded ++ p.st.batches)

end Runs

namespace TipCodeInv

variable {keccak : Bytes → Hash} {base : Trie} {S : UInt64} {bs : List Batch}
  {codes : Hash → Option Bytes} {code : Hash → Bytes} {p p' : TipProcess}

theorem init {w : Site} (hw : Built keccak base S w bs)
    (hcodes : ∀ h, row w.env (.code h) = codes h) {h : Handle} (hh : h = w.writer ∨ h = w.reader)
    (f : Option UInt64) :
    TipCodeInv keccak base S bs codes code ⟨w.env, h, Mem.State.new f, [], [], []⟩ := by
  have hs := hw.inv
  refine ⟨?_, ?_, ?_, hcodes, rfl, List.prefix_rfl, Mem.PinsLag.new _ _ _ f, ?_, trivial, trivial⟩
  · rw [List.append_nil]
    exact hs.refines
  · rcases hh with rfl | rfl
    · exact hs.writer
    · exact hs.reader
  · rw [List.append_nil]
    exact hs.chain
  · rintro hash c (hc | ⟨sb, hsb, -⟩)
    · cases hc
    · cases hsb

theorem fin_le (hi : TipCodeInv keccak base S bs codes code p) :
    p.folded.length ≤ (p.committed.map Batch.diff).length := by
  rw [List.length_map]
  exact hi.folded.length_le

theorem answers (hi : TipCodeInv keccak base S bs codes code p) (k : Key) :
    Mem.Answers keccak p.handle p.env
      (Diff.applyAll (p.committed.map Batch.diff) (foldBatches bs (base.state keccak))) k := by
  have h := Mem.answers_of_refines hi.refines hi.coherent hi.contract k
  rw [List.map_append, Diff.applyAll_append, ← foldBatches_eq bs] at h
  exact h

/-- Steps of the view that keep its layers. -/
theorem of_st (hi : TipCodeInv keccak base S bs codes code p) {st : Mem.State}
    (q : List (Nat × Address)) (hl : st.layers = p.st.layers)
    (hpins : Mem.PinsLag (p.committed.map Batch.diff) (foldBatches bs (base.state keccak))
      p.folded.length st)
    (hcached : ∀ hash c, Cached st hash c → row p.env (.code hash) = some c) :
    TipCodeInv keccak base S bs codes code { p with st := st, inflight := q } := by
  have hb : st.batches = p.st.batches := by rw [Mem.State.batches, Mem.State.batches, hl]
  refine ⟨hi.refines, hi.coherent, hi.contract, hi.rows, ?_, hi.folded, hpins, hcached,
    hi.committed, ?_⟩
  · rw [hb, hl]
    exact hi.layers
  · rw [hb]
    exact hi.chain

theorem codeOf_layers (env : Env) (st : Mem.State) (i : Nat) (hash : Hash) :
    (st.codeOf env i hash).2.layers = st.layers := by
  rw [Mem.State.codeOf]
  split
  · rfl
  · split
    · rfl
    · split <;> rfl

theorem codeOf_pins {ds : List (Diff Val)} {σ : State} {F : Nat} {st : Mem.State}
    (hp : Mem.PinsLag ds σ F st) (env : Env) (i : Nat) (hash : Hash) :
    Mem.PinsLag ds σ F (st.codeOf env i hash).2 := by
  rw [Mem.State.codeOf]
  split
  · exact hp
  · split
    · exact hp
    · split
      · exact hp
      · refine ⟨hp.base, fun sb hsb => ?_⟩
        rcases Mem.mem_modify hsb with hsb | ⟨sb0, hsb0, rfl⟩
        · exact hp.buffers sb hsb
        · exact (hp.buffers sb0 hsb0).mono fun k v hv => by cases k <;> exact hv

theorem commit (hi : TipCodeInv keccak base S bs codes code p) (haddr : Addressed code codes)
    {b : Batch}
    (hb : Extends keccak base S (bs ++ p.committed) [b])
    (hc : Carries keccak code (foldCodes p.committed codes)
      (foldBatches (bs ++ p.committed) (base.state keccak)) b) :
    TipCodeInv keccak base S bs codes code
      { p with env := writeBlock p.env b, committed := p.committed ++ [b] } := by
  have hblock : b.block.toNat = S.toNat + (bs ++ p.committed).length + 1 := hb.numbers 0 b rfl
  have hr := hi.refines.writeBlock hblock
  have hrows : ∀ h, row (writeBlock p.env b) (.code h) = foldCodes (p.committed ++ [b]) codes h := by
    intro h
    rw [row_writeBlock_code, foldCodes_append]
    exact congrArg (fun f => foldCodes [b] f h) (funext hi.rows)
  have hcommitted : CarriesAll keccak code codes (foldBatches bs (base.state keccak))
      (p.committed ++ [b]) := by
    rw [CarriesAll.append, ← foldBatches_append]
    exact ⟨hi.committed, hc, trivial⟩
  refine ⟨by rw [← List.append_assoc]; exact hr, hi.coherent.of_rows ?_ ?_, ?_, hrows, hi.layers,
    hi.folded.trans (List.prefix_append _ _), ?_, fun hash c hcd => ?_, hcommitted, hi.chain⟩
  · exact hr.genesis.trans hi.refines.genesis.symm
  · rw [row_writeBlock_other _ _ (by simp) (by simp) (by simp)]
    exact id
  · rw [← List.append_assoc]
    exact ContractChain.append.mpr ⟨hi.contract, hb.contract⟩
  · rw [List.map_append]
    exact hi.pins.append _
  · -- a block that writes the code again writes the same
    have hold := hi.rows hash
    rw [hi.cached hash c hcd] at hold
    have hne : foldCodes (p.committed ++ [b]) codes hash ≠ none := by
      rw [foldCodes_append, foldCodes_ne_none_iff, ← hold]
      simp
    obtain ⟨c', hc'⟩ := Option.ne_none_iff_exists'.mp hne
    have heq : c = code hash := hi.committed.addressed haddr hash c hold.symm
    have heq' : c' = code hash := hcommitted.addressed haddr hash c' hc'
    rw [hrows, hc', heq, heq']

theorem setFinalized (hi : TipCodeInv keccak base S bs codes code p) (h : UInt64) :
    TipCodeInv keccak base S bs codes code { p with env := setFinalized p.env h } := by
  have hr := hi.refines.put_other (r := .finalized) rfl (beBytes h)
  have hrow : ∀ hash, row (Store.setFinalized p.env h) (.code hash) = row p.env (.code hash) :=
    fun hash => row_put_of_ne (r := .finalized) _ _ (by simp)
  exact { hi with
    refines := hr
    coherent := hi.coherent.of_rows (hr.genesis.trans hi.refines.genesis.symm)
      (row_put_ne_none .finalized _)
    rows := fun hash => (hrow hash).trans (hi.rows hash)
    cached := fun hash c hc => (hrow hash).trans (hi.cached hash c hc) }

/-- Nothing in a read phase breaks the invariant. -/
theorem phase (hi : TipCodeInv keccak base S bs codes code p) (haddr : Addressed code codes)
    (hs : PhaseStep keccak base S bs codes code p p') :
    TipCodeInv keccak base S bs codes code p' := by
  cases hs with
  | read hs =>
    exact hi.of_st _ hs.layers (hs.pins hi.pins hi.fin_le fun k _ => hi.answers k)
      fun hash c hc => hi.cached hash c (cached_read hs hc)
  | code i hash =>
    refine hi.of_st _ (codeOf_layers _ _ _ _) (codeOf_pins hi.pins _ _ _) fun hash' c hc => ?_
    exact (cached_codeOf hc).elim (hi.cached hash' c) id
  | sees hh =>
    rcases hh with rfl | rfl
    · exact { hi with coherent := hi.coherent.genesis_snd hi.refines.genesis }
    · exact { hi with coherent := hi.coherent.complete_snd }
  | commit hb hc => exact hi.commit haddr hb hc
  | setFinalized h => exact hi.setFinalized h

theorem applyBlock (hi : TipCodeInv keccak base S bs codes code p) {b : Batch}
    (hc : Carries keccak code (foldCodes (p.folded ++ p.st.batches) codes)
      (foldBatches (bs ++ (p.folded ++ p.st.batches)) (base.state keccak)) b) :
    TipCodeInv keccak base S bs codes code { p with st := p.st.applyBlock b } := by
  have hl : (p.st.applyBlock b).layers = (p.st.batches ++ [b]).map Mem.newLayer := by
    rw [Mem.layers_applyBlock, List.map_append, ← hi.layers]
    rfl
  have hbs := Mem.batches_of_layers hl
  refine ⟨hi.refines, hi.coherent, hi.contract, hi.rows, by rw [hbs]; exact hl, hi.folded,
    hi.pins.applyBlock b, fun hash c hcd => hi.cached hash c (cached_lockAndDrain hcd),
    hi.committed, ?_⟩
  rw [hbs, ← List.append_assoc, CarriesAll.append, ← foldBatches_append]
  exact ⟨hi.chain, hc, trivial⟩

theorem preferenceReset (hi : TipCodeInv keccak base S bs codes code p) {preferred : List Batch}
    (hc : CarriesAll keccak code (foldCodes p.folded codes)
      (foldBatches (bs ++ p.folded) (base.state keccak)) preferred) :
    TipCodeInv keccak base S bs codes code { p with st := p.st.preferenceReset preferred } := by
  have hl := Mem.layers_preferenceReset p.st preferred
  have hbs := Mem.batches_of_layers hl
  refine ⟨hi.refines, hi.coherent, hi.contract, hi.rows, by rw [hbs]; exact hl, hi.folded,
    hi.pins.preferenceReset preferred,
    fun hash c hcd => hi.cached hash c (cached_preferenceReset hcd), hi.committed, ?_⟩
  rw [hbs, CarriesAll.append, ← foldBatches_append]
  exact ⟨(CarriesAll.append.mp hi.chain).1, hc⟩

theorem finalize (hi : TipCodeInv keccak base S bs codes code p) {b : Batch}
    (hb : p.st.batches.head? = some b) (hc : p.folded ++ [b] <+: p.committed) :
    TipCodeInv keccak base S bs codes code
      { p with st := (p.st.finalize b.block b.hash).2, folded := p.folded ++ [b] } := by
  obtain ⟨rest, hrest⟩ := List.head?_eq_some_iff.mp hb
  have hl : p.st.layers = Mem.newLayer b :: rest.map Mem.newLayer := by rw [hi.layers, hrest]; rfl
  obtain ⟨-, hfold, hrl⟩ := Mem.finalize_oldest hl
  have hbs := Mem.batches_of_layers hrl
  have hnext : (p.committed.map Batch.diff)[p.folded.length]? = some b.diff := by
    obtain ⟨more, hmore⟩ := hc
    rw [← hmore]
    simp
  refine ⟨hi.refines, hi.coherent, hi.contract, hi.rows, by rw [hbs]; exact hrl, hc, ?_,
    fun hash c hcd => hi.cached hash c (cached_fold hfold hcd), hi.committed, ?_⟩
  · rw [List.length_append, List.length_singleton]
    exact hi.pins.fold hnext hfold
  · rw [hbs, List.append_assoc, List.singleton_append, ← hrest]
    exact hi.chain

/-- The code of an account that a read returns is in the store or in the layers. -/
theorem known_of_account (hi : TipCodeInv keccak base S bs codes code p)
    (hcov : Covers keccak codes (Capture.foldBatches bs (base.state keccak))) {i : Nat} {a : Address}
    {acct : Account} (hr : (p.st.account keccak p.handle p.env i a).1 = .ok (some acct))
    (hH : HasCode keccak acct.codeHash) :
    foldCodes p.st.batches (fun h => row p.env (.code h)) acct.codeHash ≠ none := by
  have hrows : (fun h => row p.env (.code h)) = foldCodes p.committed codes := funext hi.rows
  rw [hrows, foldCodes_ne_none_iff]
  have hsees : Mem.Sees (p.committed.map Batch.diff) (Capture.foldBatches bs (base.state keccak))
      p.folded.length p.st.batches (.account a) (some acct : Option Account) := by
    rw [Mem.account_fst, Mem.State.peek] at hr
    cases hk : p.st.known i (.account a) with
    | some v =>
      rw [hk] at hr
      obtain rfl := Except.ok.inj hr
      exact Mem.knownAccount_sees hi.pins hi.layers hi.fin_le hk
    | none =>
      rw [hk] at hr
      exact Mem.sees_of_height (by rw [← hi.layers]; exact Mem.look_of_known_none hk)
        ((hi.answers _).at_height hi.fin_le hr)
  obtain ⟨j, -, -, hj⟩ := hsees
  cases hst : Diff.stack (p.st.batches.map Batch.diff) (.account a) with
  | some v =>
    -- a layer has the account: its chain carries the code
    rw [hst, Option.getD_some] at hj
    subst hj
    have hval : Capture.foldBatches (p.folded ++ p.st.batches)
        (Capture.foldBatches bs (base.state keccak)) (.account a) = (some acct : Option Account) := by
      rw [foldBatches_append, foldBatches_eq p.st.batches, Diff.applyAll_eq_stack, Diff.apply, hst]
      rfl
    have hne := hcov.foldBatches hi.chain a acct hval hH
    rw [foldCodes_append, foldCodes_ne_none_iff] at hne
    refine hne.imp_left fun hne => ?_
    rw [foldCodes_ne_none_iff] at hne ⊢
    refine hne.imp_right ?_
    rintro ⟨b, hb, hc⟩
    exact ⟨b, hi.folded.subset hb, hc⟩
  | none =>
    -- the value is that of some committed height
    rw [hst, Option.getD_none, Mem.height_eq_foldBatches] at hj
    have htake := hi.committed
    rw [← List.take_append_drop j p.committed, CarriesAll.append] at htake
    have hne := hcov.foldBatches htake.1 a acct hj.symm hH
    rw [foldCodes_ne_none_iff] at hne
    refine Or.inl ((foldCodes_ne_none_iff _ _ _).mpr ?_)
    refine hne.imp_right ?_
    rintro ⟨b, hb, hc⟩
    exact ⟨b, List.take_subset j p.committed hb, hc⟩

end TipCodeInv

section Main

variable {keccak : Bytes → Hash} {base : Trie} {S : UInt64} {bs : List Batch}
  {codes : Hash → Option Bytes} {code : Hash → Bytes} {p p' : TipProcess}

theorem TipCodeRun.inv (haddr : Addressed code codes)
    (hp : TipCodeRun keccak base S bs codes code p) : TipCodeInv keccak base S bs codes code p := by
  induction hp with
  | init hw hcodes hh f => exact TipCodeInv.init hw hcodes hh f
  | phase hp hs ih => exact ih.phase haddr hs
  | applyBlock hp hq hb hc ih => exact ih.applyBlock hc
  | preferenceReset hp hq hb hc ih => exact ih.preferenceReset hc
  | finalize hp hq hb hc ih => exact ih.finalize hb hc

/-- A read phase keeps the layers, and the blocks in the store. -/
theorem PhaseStep.keeps (hs : PhaseStep keccak base S bs codes code p p') :
    p'.st.batches = p.st.batches ∧ p.committed ⊆ p'.committed := by
  cases hs with
  | read hs => exact ⟨by rw [Mem.State.batches, Mem.State.batches, hs.layers], List.Subset.refl _⟩
  | code i hash =>
    refine ⟨?_, List.Subset.refl _⟩
    dsimp only
    rw [Mem.State.batches, Mem.State.batches, TipCodeInv.codeOf_layers]
  | sees _ | setFinalized _ => exact ⟨rfl, List.Subset.refl _⟩
  | commit hb hc => exact ⟨rfl, List.subset_append_left _ _⟩

/-- The code that a read phase knows, it knows until its end. -/
theorem TipCodeRun.phase_known (haddr : Addressed code codes)
    (hp : TipCodeRun keccak base S bs codes code p)
    (hs : Relation.ReflTransGen (PhaseStep keccak base S bs codes code) p p') {hash : Hash}
    (hk : foldCodes p.st.batches (fun h => row p.env (.code h)) hash ≠ none) :
    TipCodeRun keccak base S bs codes code p' ∧
      foldCodes p'.st.batches (fun h => row p'.env (.code h)) hash ≠ none := by
  induction hs with
  | refl => exact ⟨hp, hk⟩
  | tail _ hstep ih =>
    obtain ⟨hrun, hk⟩ := ih
    have hrun' := hrun.phase hstep
    obtain ⟨hbs, hsub⟩ := hstep.keeps
    refine ⟨hrun', ?_⟩
    rw [foldCodes_ne_none_iff, (hrun.inv haddr).rows, foldCodes_ne_none_iff] at hk
    rw [foldCodes_ne_none_iff, (hrun'.inv haddr).rows, foldCodes_ne_none_iff, hbs]
    exact hk.imp_left (Or.imp_right fun ⟨b, hb, hc⟩ => ⟨b, hsub hb, hc⟩)

/-- In every run of a process with a tip view: when an account read returns a contract, the
executor's view over the same layers has its code until the read phase ends, and `State.Code`
has it exactly if it was in the store at the start or a committed block carries it. -/
theorem code_readable_iff_committed
    (hcov : Covers keccak codes (foldBatches bs (base.state keccak))) (haddr : Addressed code codes)
    (hp : TipCodeRun keccak base S bs codes code p) {i : Nat} {a : Address} {acct : Account}
    (hr : (p.st.account keccak p.handle p.env i a).1 = .ok (some acct))
    (hH : HasCode keccak acct.codeHash)
    (hs : Relation.ReflTransGen (PhaseStep keccak base S bs codes code) p p') (j : Nat) :
    View.code p'.env ⟨(p'.st.batches.map newLayer).reverse⟩ acct.codeHash =
        .ok (code acct.codeHash) ∧
      ((p'.st.codeOf p'.env j acct.codeHash).1 = .ok (code acct.codeHash) ↔
        codes acct.codeHash ≠ none ∨
          ∃ b ∈ p'.committed, ∃ c, Op.code acct.codeHash c ∈ b.ops) := by
  obtain ⟨hp', hk⟩ := hp.phase_known haddr hs ((hp.inv haddr).known_of_account hcov hr hH)
  have hi := hp'.inv haddr
  have hrows : (fun h => row p'.env (.code h)) = foldCodes p'.committed codes := funext hi.rows
  refine ⟨?_, ?_⟩
  · have hview := known_append_layers p'.env [] p'.st.batches acct.codeHash
    rw [List.append_nil] at hview
    have hnil : View.known p'.env ⟨[]⟩ = fun h => row p'.env (.code h) := rfl
    obtain ⟨c, hc⟩ := Option.ne_none_iff_exists'.mp hk
    rw [code_eq, hview, hnil, hc]
    -- the blocks of the layers are addressed too
    have hstore : Addressed code (fun h => row p'.env (.code h)) := by
      rw [hrows]
      exact hi.committed.addressed haddr
    have hlayers := (CarriesAll.append.mp hi.chain).2
    rw [hlayers.addressed hstore _ c hc]
  · rw [codeOf_fst hi.cached, ← foldCodes_ne_none_iff, ← hi.rows]
    have hget : row p'.env (.code acct.codeHash) = p'.env.get (appendCodeKey [] acct.codeHash) := rfl
    constructor
    · intro hok hnone
      rw [getCode, ← hget, hnone] at hok
      cases hok
    · intro hne
      obtain ⟨c, hc⟩ := Option.ne_none_iff_exists'.mp hne
      have heq : c = code acct.codeHash :=
        hi.committed.addressed haddr _ c ((hi.rows _).symm.trans hc)
      rw [getCode, ← hget, hc, heq]

end Main

namespace Sample

open Store.Sample

/-- A contract with one byte of code. -/
def contract : Address := FixedBytes.ofNat 20 2

def codeHash : Hash := FixedBytes.ofNat 32 99

def codeOf (h : Hash) : Bytes := if h = codeHash then [254] else []

def deployed : Account := ⟨0, 1, codeHash⟩

def deploy : Batch where
  block := 6
  hash := FixedBytes.ofNat 32 63
  parent := FixedBytes.ofNat 32 5
  time := 6000
  ops := [.account contract deployed, .code codeHash [254]]

theorem codes_none (h : Hash) : codes h = none := by
  rw [codes]
  refine (row_put_of_ne (r := .baselineComplete) _ _ (by simp)).trans ?_
  refine (row_del _ .baselineProgress _).trans ((if_neg (by simp)).trans ?_)
  refine (row_put_of_ne (r := .baseSlot (digest addr.1) (digest slot0.1)) _ _ (by simp)).trans ?_
  refine (row_put_of_ne (r := .baseAccount (digest addr.1)) _ _ (by simp)).trans ?_
  exact row_put_of_ne (r := .genesis) _ _ (by simp)

theorem codes_addressed : Addressed codeOf codes := by
  intro h c hc
  rw [codes_none] at hc
  cases hc

/-- The accounts of the baseline have no code. -/
theorem codes_cover : Covers digest codes (foldBatches [] (trie.state digest)) := by
  intro a acct hacct hH
  have hacct' : (if digest a.1 = digest addr.1 then some (Store.Sample.acct 10) else none) = some acct :=
    hacct
  split at hacct'
  · rw [← Option.some.inj hacct'] at hH
    exact absurd rfl hH.1
  · cases hacct'

theorem deploy_extends : Extends digest trie 5 [] [deploy] where
  numbers n b hn := by
    cases n with
    | zero =>
      obtain rfl : deploy = b := by simpa using hn
      rfl
    | succ n => simp at hn
  contract := by
    refine ⟨⟨by decide, fun a ha _ => by simp [deploy] at ha, fun a hs => ?_⟩, trivial⟩
    obtain ⟨o, ho, hso⟩ := hs
    simp only [deploy, List.mem_cons, List.not_mem_nil, or_false] at ho
    rcases ho with rfl | rfl <;> simp [Op.isSlotOf] at hso

theorem deploy_carries (σ : State) : Carries digest codeOf codes σ deploy where
  addressed h c hc := by
    obtain ⟨rfl, rfl⟩ : h = codeHash ∧ c = [254] := by simpa [deploy] using hc
    rfl
  carried a acct ha hH := by
    obtain ⟨-, rfl⟩ : a = contract ∧ acct = deployed := by simpa [deploy] using ha
    exact Or.inr ((foldCodes_ne_none_iff _ _ _).mpr
      (Or.inr ⟨deploy, by simp, [254], by simp [deploy, deployed]⟩))

/-- The block of the contract is a layer. -/
def tip : TipProcess :=
  ⟨finished.env, finished.writer, (Mem.State.new none).applyBlock deploy, [], [], []⟩

theorem tip_run : TipCodeRun digest trie 5 [] codes codeOf tip :=
  (TipCodeRun.init finished_built (fun _ => rfl) (Or.inl rfl) none).applyBlock rfl deploy_extends
    (deploy_carries _)

/-- The block is committed. -/
def committed : TipProcess := { tip with env := writeBlock tip.env deploy, committed := [] ++ [deploy] }

theorem committed_step : PhaseStep digest trie 5 [] codes codeOf tip committed :=
  .commit deploy_extends (deploy_carries _)

end Sample

/-- A contract deployed in a layer: the account is visible at the tip, the executor's view has
its code, and `State.Code` does not find it. -/
theorem tip_contract_without_code :
    TipCodeRun Store.Sample.digest Store.Sample.trie 5 [] Sample.codes Sample.codeOf Sample.tip ∧
      (Sample.tip.st.account Store.Sample.digest Sample.tip.handle Sample.tip.env 0
        Sample.contract).1 = .ok (some Sample.deployed) ∧
      View.code Sample.tip.env ⟨(Sample.tip.st.batches.map newLayer).reverse⟩ Sample.codeHash =
        .ok [254] ∧
      (Sample.tip.st.codeOf Sample.tip.env 0 Sample.codeHash).1 =
        .error (.codeNotFound Sample.codeHash) :=
  ⟨Sample.tip_run, by decide +kernel, by decide +kernel, by decide +kernel⟩

/-- The theorem at work: once the block is committed the code is there. -/
theorem code_readable_iff_committed_sample :
    (Sample.committed.st.codeOf Sample.committed.env 0 Sample.codeHash).1 = .ok [254] := by
  have hread : (Sample.tip.st.account Store.Sample.digest Sample.tip.handle Sample.tip.env 0
      Sample.contract).1 = .ok (some Sample.deployed) := by decide +kernel
  have hH : HasCode Store.Sample.digest Sample.deployed.codeHash := ⟨by decide, by decide⟩
  exact (code_readable_iff_committed Sample.codes_cover Sample.codes_addressed Sample.tip_run hread hH
    (.single Sample.committed_step) 0).2.mpr
      (Or.inr ⟨Sample.deploy, by simp [Sample.committed], [254], by decide⟩)

end Flatstate.Exec
