import Flatstate.Exec.Execute
import Flatstate.Exec.Split
import Flatstate.Foundation.Interaction
import Flatstate.Sync.Loader

set_option autoImplicit false

/-!
# Exec: the capture tries (`follower/exec/statedb.go`)

libevm runs a block against `captureDB`: the tries it opens read the view of the parent, and
what it writes at commit is appended to the captured ops.  A read never sees a write of the same
block; the block's layer, which the next block reads through, is made of the ops.

libevm is a program over the tries here.  As long as it reads before it commits, it cannot tell
the capture tries from tries that are written in place (`Tries`), over any number of blocks.
-/

namespace Flatstate.Exec

open Foundation Schema Capture Store
open Sync (StateAccount bytesToHash bytesToHash_of_length)

/-! ## The interface -/

/-- What `OpenTrie` and `OpenStorageTrie` return. -/
inductive TrieRef where
  | account
  | storage (addr : Address)

/-- What the tries fail with. -/
inductive TrieErr where
  | store (e : Err)
  /-- "exec: storage key has %d bytes" -/
  | keySize (n : Nat)
  /-- "exec: storage read on account trie" -/
  | storageRead
  /-- "exec: storage write on account trie" -/
  | storageWrite
  /-- "exec: storage delete on account trie" -/
  | storageDelete
  /-- "exec: account read on storage trie" -/
  | accountRead
  /-- "exec: account write on storage trie" -/
  | accountWrite
  /-- "exec: account delete on storage trie" -/
  | accountDelete
  /-- "exec: code write on storage trie" -/
  | codeWrite

/-- The calls of libevm's `state.Database` and `state.Trie`. -/
inductive TrieQ where
  | contractCode (hash : Hash)
  | contractCodeSize (hash : Hash)
  | getAccount (t : TrieRef) (addr : Address)
  | getStorage (t : TrieRef) (key : Bytes)
  | updateAccount (t : TrieRef) (addr : Address) (acct : StateAccount)
  | deleteAccount (t : TrieRef) (addr : Address)
  | updateContractCode (t : TrieRef) (hash : Hash) (code : Bytes)
  | updateStorage (t : TrieRef) (key value : Bytes)
  | deleteStorage (t : TrieRef) (key : Bytes)
  /-- `Hash` and the root `Commit` returns -/
  | root (t : TrieRef)

def TrieQ.Ans : TrieQ → Type
  | .contractCode _ => Except TrieErr Bytes
  | .contractCodeSize _ => Nat × Option TrieErr
  | .getAccount _ _ => Except TrieErr (Option StateAccount)
  | .getStorage _ _ => Except TrieErr (Option Bytes)
  | .root _ => Hash
  | _ => Except TrieErr Unit

/-- The length of a blob, and the error that comes with it. -/
def codeSize : Except TrieErr Bytes → Nat × Option TrieErr
  | .error e => (0, some e)
  | .ok c => (c.length, none)

/-! ## The capture tries -/

/-- What `captureDB` reads: the view of the parent. -/
structure Source where
  account : Address → Except Err (Option Account)
  slot : Address → Hash → Except Err Hash
  code : Hash → Except Err Bytes

/-- The view, over the store. -/
def View.source (keccak : Bytes → Hash) (h : Handle) (env : Env) (v : View) : Source where
  account := v.account keccak h env
  slot := v.slot keccak h env
  code := v.code env

/-- `captureDB`; the disk and the trie database are sinks. -/
structure CaptureDB where
  v : Source
  ops : List Op

/-- `newCaptureDB`. -/
def newCaptureDB (v : Source) : CaptureDB := ⟨v, []⟩

/-- `d.ops = append(d.ops, op)`. -/
def CaptureDB.append (d : CaptureDB) (op : Op) : CaptureDB := { d with ops := d.ops ++ [op] }

/-- `captureDB.ContractCode`. -/
def Source.contractCode (v : Source) (hash : Hash) : Except TrieErr Bytes :=
  match v.code hash with
  | .error e => .error (.store e)
  | .ok c => .ok c

/-- The bytes of a slot; a zero slot has no leaf. -/
def slotBytes (v : Hash) : Option Bytes := if v = Hash.zero then none else some v.1

/-- `storageTrie.GetStorage` behind its key check. -/
def Source.getStorage (v : Source) (addr : Address) (slot : Hash) : Except TrieErr (Option Bytes) :=
  match v.slot addr slot with
  | .error e => .error (.store e)
  | .ok x => .ok (slotBytes x)

section Capture

variable (keccak : Bytes → Hash) (emptyRoot : Hash)

/-- The account libevm is given: storage roots are always empty, and no code hash is that of
no code. -/
def stateAccount (a : Account) : StateAccount where
  nonce := a.nonce
  balance := some a.balance
  root := emptyRoot
  codeHash := (if a.codeHash = Hash.zero then keccak [] else a.codeHash).1

/-- `accountTrie.GetAccount`. -/
def Source.getAccount (v : Source) (addr : Address) : Except TrieErr (Option StateAccount) :=
  match v.account addr with
  | .error e => .error (.store e)
  | .ok none => .ok none
  | .ok (some a) => .ok (some (stateAccount keccak emptyRoot a))

/-- The account `UpdateAccount` captures. -/
def capturedAccount (acct : StateAccount) : Account where
  balance := acct.balance.getD 0
  nonce := acct.nonce
  codeHash := if acct.codeHash.length = 32 then bytesToHash acct.codeHash else keccak []

/-- A call on the capture tries. -/
def CaptureDB.step (d : CaptureDB) : (q : TrieQ) → q.Ans × CaptureDB
  | .contractCode hash => (d.v.contractCode hash, d)
  | .contractCodeSize hash => (codeSize (d.v.contractCode hash), d)
  | .getAccount .account addr => (d.v.getAccount keccak emptyRoot addr, d)
  | .getAccount (.storage _) _ => (.error .accountRead, d)
  | .getStorage .account _ => (.error .storageRead, d)
  | .getStorage (.storage addr) key =>
    if key.length ≠ 32 then (.error (.keySize key.length), d)
    else (d.v.getStorage addr (bytesToHash key), d)
  | .updateAccount .account addr acct => (.ok (), d.append (.account addr (capturedAccount keccak acct)))
  | .updateAccount (.storage _) _ _ => (.error .accountWrite, d)
  | .deleteAccount .account addr => (.ok (), d.append (.destruct addr))
  | .deleteAccount (.storage _) _ => (.error .accountDelete, d)
  | .updateContractCode .account hash code => (.ok (), d.append (.code hash code))
  | .updateContractCode (.storage _) _ _ => (.error .codeWrite, d)
  | .updateStorage .account _ _ => (.error .storageWrite, d)
  | .updateStorage (.storage addr) key value =>
    if key.length ≠ 32 then (.error (.keySize key.length), d)
    else (.ok (), d.append (.slot addr (bytesToHash key) (bytesToHash value)))
  | .deleteStorage .account _ => (.error .storageDelete, d)
  | .deleteStorage (.storage addr) key =>
    if key.length ≠ 32 then (.error (.keySize key.length), d)
    else (.ok (), d.append (.deleteSlot addr (bytesToHash key)))
  | .root _ => (emptyRoot, d)

end Capture

/-! ## Tries written in place -/

/-- What a read of each key returns. -/
@[ext]
structure Tries where
  accounts : Address → Except TrieErr (Option StateAccount)
  storage : Address → Hash → Except TrieErr (Option Bytes)
  codes : Hash → Except TrieErr Bytes

section InPlace

variable (keccak : Bytes → Hash) (emptyRoot : Hash)

/-- The account that is kept: without a balance it has none, its root is empty, and without a
proper code hash it has no code. -/
def normal (acct : StateAccount) : StateAccount where
  nonce := acct.nonce
  balance := some (acct.balance.getD 0)
  root := emptyRoot
  codeHash :=
    if acct.codeHash.length = 32 ∧ acct.codeHash ≠ Hash.zero.1 then acct.codeHash else (keccak []).1

def Tries.setAccount (τ : Tries) (addr : Address) (acct : StateAccount) : Tries :=
  { τ with accounts := Function.update τ.accounts addr (.ok (some (normal keccak emptyRoot acct))) }

/-- An account goes with its storage. -/
def Tries.deleteAccount (τ : Tries) (addr : Address) : Tries :=
  { τ with
    accounts := Function.update τ.accounts addr (.ok none)
    storage := Function.update τ.storage addr (fun _ => .ok none) }

def Tries.setSlot (τ : Tries) (addr : Address) (slot value : Hash) : Tries :=
  { τ with
    storage := Function.update τ.storage addr
      (Function.update (τ.storage addr) slot (.ok (slotBytes value))) }

def Tries.setCode (τ : Tries) (hash : Hash) (code : Bytes) : Tries :=
  { τ with codes := Function.update τ.codes hash (.ok code) }

/-- A call on tries that are written in place. -/
def Tries.step (τ : Tries) : (q : TrieQ) → q.Ans × Tries
  | .contractCode hash => (τ.codes hash, τ)
  | .contractCodeSize hash => (codeSize (τ.codes hash), τ)
  | .getAccount .account addr => (τ.accounts addr, τ)
  | .getAccount (.storage _) _ => (.error .accountRead, τ)
  | .getStorage .account _ => (.error .storageRead, τ)
  | .getStorage (.storage addr) key =>
    if key.length ≠ 32 then (.error (.keySize key.length), τ)
    else (τ.storage addr (bytesToHash key), τ)
  | .updateAccount .account addr acct => (.ok (), τ.setAccount keccak emptyRoot addr acct)
  | .updateAccount (.storage _) _ _ => (.error .accountWrite, τ)
  | .deleteAccount .account addr => (.ok (), τ.deleteAccount addr)
  | .deleteAccount (.storage _) _ => (.error .accountDelete, τ)
  | .updateContractCode .account hash code => (.ok (), τ.setCode hash code)
  | .updateContractCode (.storage _) _ _ => (.error .codeWrite, τ)
  | .updateStorage .account _ _ => (.error .storageWrite, τ)
  | .updateStorage (.storage addr) key value =>
    if key.length ≠ 32 then (.error (.keySize key.length), τ)
    else (.ok (), τ.setSlot addr (bytesToHash key) (bytesToHash value))
  | .deleteStorage .account _ => (.error .storageDelete, τ)
  | .deleteStorage (.storage addr) key =>
    if key.length ≠ 32 then (.error (.keySize key.length), τ)
    else (.ok (), τ.setSlot addr (bytesToHash key) Hash.zero)
  | .root _ => (emptyRoot, τ)

end InPlace

/-! ## The state transition over the tries -/

/-- Coreth's transition as a program over the tries: upgrades, transactions, atomic
transactions and the commit, up to an error or the gas used and the receipts. -/
structure Transition (ρ : Type) where
  run : EthBlock → Prog TrieQ TrieQ.Ans (Option (UInt64 × ρ))
  receiptsRoot : ρ → Hash
  bloom : ρ → Bytes

section Transition

variable {ρ : Type} (t : Transition ρ) (keccak : Bytes → Hash) (emptyRoot : Hash)

/-- `Exec.run`: the transition over a new `captureDB`.  Code is read from `code`. -/
def Transition.evm (code : Hash → Except Err Bytes) : Evm ρ where
  run reads blk :=
    let v : Source := ⟨fun a => reads (.account a), fun a s => reads (.slot a s), code⟩
    let r := (t.run blk).run (CaptureDB.step keccak emptyRoot) (newCaptureDB v)
    r.1.map fun x => (r.2.ops, x.1, x.2)
  receiptsRoot := t.receiptsRoot
  bloom := t.bloom

/-- Blocks executed on top of each other. -/
def Transition.executeAll (h : Handle) (env : Env) :
    Executor → Hash → List EthBlock → Except ExecErr (Executor × Hash)
  | e, parent, [] => .ok (e, parent)
  | e, parent, blk :: blks =>
    match e.execute (t.evm keccak emptyRoot (View.code env (e.viewAt parent))) keccak h env parent blk with
    | (.error x, _) => .error x
    | (.ok b, e') => Transition.executeAll h env e' b.hash blks

/-- The validation does not look at the run. -/
def Transition.validate (blk : EthBlock) (usedGas : UInt64) (receipts : ρ) : Except ExecErr Unit :=
  Evm.validate ⟨fun _ _ => none, t.receiptsRoot, t.bloom⟩ blk usedGas receipts

/-- Blocks executed and validated one after the other, on tries that are written in place. -/
def Transition.inPlaceAll : Tries → List EthBlock → Except ExecErr Tries
  | τ, [] => .ok τ
  | τ, blk :: blks =>
    match (t.run blk).run (Tries.step keccak emptyRoot) τ with
    | (none, _) => .error (.run blk.number)
    | (some x, τ') =>
      match t.validate blk x.1 x.2 with
      | .error e => .error e
      | .ok () => Transition.inPlaceAll τ' blks

end Transition

/-! ## What the layers of a view stand for -/

section Refine

variable {keccak : Bytes → Hash} {handle : Handle} {env : Env} {emptyRoot : Hash}

variable (keccak emptyRoot) in
/-- The tries as the capture tries show them. -/
def Source.tries (v : Source) : Tries where
  accounts := v.getAccount keccak emptyRoot
  storage := v.getStorage
  codes := v.contractCode

variable (keccak handle env emptyRoot) in
/-- The tries over some layers. -/
def Tries.over (ls : List Layer) : Tries :=
  (View.source keccak handle env ⟨ls⟩).tries keccak emptyRoot

/-- The layer of a block answers for the accounts it touches. -/
theorem over_accounts (b : Batch) (ls : List Layer) (addr : Address) :
    (Tries.over keccak handle env emptyRoot (newLayer b :: ls)).accounts addr =
      (postOf b.ops (.account addr)).elim ((Tries.over keccak handle env emptyRoot ls).accounts addr)
        (fun (r : Option Account) => .ok (r.map (stateAccount keccak emptyRoot))) := by
  have hpost : (newLayer b).account addr = postOf b.ops (.account addr) :=
    congrFun (newLayer_post b) (.account addr)
  rw [← hpost]
  simp only [Tries.over, Source.tries, Source.getAccount, View.source, View.account,
    List.findSome?_cons]
  cases (newLayer b).account addr with
  | none => rfl
  | some r => cases r <;> rfl

theorem over_storage (b : Batch) (ls : List Layer) (addr : Address) (s : Hash) :
    (Tries.over keccak handle env emptyRoot (newLayer b :: ls)).storage addr s =
      (postOf b.ops (.slot addr s)).elim ((Tries.over keccak handle env emptyRoot ls).storage addr s)
        (fun (v : Hash) => .ok (slotBytes v)) := by
  have hpost : (newLayer b).slot addr s = postOf b.ops (.slot addr s) :=
    congrFun (newLayer_post b) (.slot addr s)
  rw [← hpost]
  simp only [Tries.over, Source.tries, Source.getStorage, View.source, View.slot,
    List.findSome?_cons]
  cases (newLayer b).slot addr s <;> rfl

theorem over_codes (b : Batch) (ls : List Layer) (hash : Hash) :
    (Tries.over keccak handle env emptyRoot (newLayer b :: ls)).codes hash =
      (b.ops.foldl addCode (fun _ => none) hash).elim
        ((Tries.over keccak handle env emptyRoot ls).codes hash) .ok := by
  have hcodes : (newLayer b).codes = b.ops.foldl addCode (fun _ => none) := apply_codes _ b.ops
  rw [← hcodes]
  simp only [Tries.over, Source.tries, Source.contractCode, View.source, View.code,
    List.findSome?_cons]
  cases (newLayer b).codes hash <;> rfl

/-- A layer that says nothing changes nothing. -/
theorem over_nil {b : Batch} (hops : b.ops = []) (ls : List Layer) :
    Tries.over keccak handle env emptyRoot (newLayer b :: ls) =
      Tries.over keccak handle env emptyRoot ls := by
  ext1
  · funext addr
    rw [over_accounts, hops]
    rfl
  · funext addr s
    rw [over_storage, hops]
    rfl
  · funext hash
    rw [over_codes, hops]
    rfl

/-! ## A captured write is a write in place -/

/-- What is captured of an account reads back as the account that is kept. -/
theorem stateAccount_captured (acct : StateAccount) :
    stateAccount keccak emptyRoot (capturedAccount keccak acct) = normal keccak emptyRoot acct := by
  have hcode : (if (capturedAccount keccak acct).codeHash = Hash.zero then keccak []
      else (capturedAccount keccak acct).codeHash).1 = (normal keccak emptyRoot acct).codeHash := by
    rw [normal]
    dsimp only
    by_cases hlen : acct.codeHash.length = 32
    · have hcap : (capturedAccount keccak acct).codeHash = bytesToHash acct.codeHash := if_pos hlen
      have hbytes := bytesToHash_of_length hlen
      have hzero : bytesToHash acct.codeHash = Hash.zero ↔ acct.codeHash = Hash.zero.1 := by
        rw [← Subtype.val_inj, hbytes]
      rw [hcap]
      by_cases hz : acct.codeHash = Hash.zero.1
      · rw [if_pos (hzero.mpr hz), if_neg (fun h => h.2 hz)]
      · rw [if_neg (fun h => hz (hzero.mp h)), if_pos ⟨hlen, hz⟩, hbytes]
    · have hcap : (capturedAccount keccak acct).codeHash = keccak [] := if_neg hlen
      rw [hcap, ite_self, if_neg (fun h => hlen h.1)]
  rw [stateAccount, hcode]
  rfl

variable (keccak emptyRoot) in
/-- A captured op, written in place. -/
def Tries.write (τ : Tries) : Op → Tries
  | .account addr a =>
    { τ with accounts := Function.update τ.accounts addr (.ok (some (stateAccount keccak emptyRoot a))) }
  | .slot addr s v => τ.setSlot addr s v
  | .deleteSlot addr s => τ.setSlot addr s Hash.zero
  | .destruct addr => τ.deleteAccount addr
  | .code h c => τ.setCode h c

theorem setSlot_storage (τ : Tries) (addr a : Address) (slot s value : Hash) :
    (τ.setSlot addr slot value).storage a s =
      if a = addr ∧ s = slot then .ok (slotBytes value) else τ.storage a s := by
  rw [Tries.setSlot]
  dsimp only
  by_cases ha : a = addr
  · subst ha
    rw [Function.update_self, Function.update_apply]
    simp
  · rw [Function.update_of_ne ha, if_neg (fun h => ha h.1)]

/-- One op more in a block's layer is one write more. -/
theorem over_concat (b : Batch) (op : Op) (ls : List Layer) :
    Tries.over keccak handle env emptyRoot (newLayer { b with ops := b.ops ++ [op] } :: ls) =
      (Tries.over keccak handle env emptyRoot (newLayer b :: ls)).write keccak emptyRoot op := by
  ext1
  · funext a
    rw [over_accounts, postOf_concat]
    cases op with
    | account addr acct =>
      by_cases ha : a = addr
      · subst ha
        simp [Tries.write, Op.post]
      · simp [Tries.write, Op.post, ha, over_accounts]
    | destruct addr =>
      by_cases ha : a = addr
      · subst ha
        simp [Tries.write, Tries.deleteAccount, Key.addr, Val.gone]
      · simp [Tries.write, Tries.deleteAccount, Key.addr, ha, over_accounts]
    | _ => exact (over_accounts b ls a).symm
  · funext a s
    rw [over_storage, postOf_concat]
    have hslot : ∀ addr slot (v : Hash), op.post (.slot a s) =
        (if a = addr ∧ s = slot then some v else none : Option Hash) →
        ((op.post (.slot a s)).or (postOf b.ops (.slot a s))).elim
          ((Tries.over keccak handle env emptyRoot ls).storage a s)
          (fun (v : Hash) => .ok (slotBytes v)) =
        ((Tries.over keccak handle env emptyRoot (newLayer b :: ls)).setSlot addr slot v).storage a s := by
      intro addr slot v hpost
      rw [hpost, setSlot_storage, over_storage]
      split <;> rfl
    cases op with
    | slot addr slot v => exact hslot addr slot v rfl
    | deleteSlot addr slot => exact hslot addr slot Hash.zero rfl
    | destruct addr =>
      by_cases ha : a = addr
      · subst ha
        simp [Tries.write, Tries.deleteAccount, Key.addr, Val.gone, slotBytes]
      · simp [Tries.write, Tries.deleteAccount, Key.addr, ha, over_storage]
    | _ => exact (over_storage b ls a s).symm
  · funext h
    rw [over_codes, List.foldl_append]
    cases op with
    | code h' c =>
      by_cases hh : h = h'
      · subst hh
        simp [Tries.write, Tries.setCode, addCode]
      · simp [Tries.write, Tries.setCode, addCode, hh, over_codes]
    | _ => exact (over_codes b ls h).symm

/-! ## Programs over the tries -/

/-- Whether a call writes. -/
def TrieQ.writes : TrieQ → Bool
  | .updateAccount _ _ _ | .deleteAccount _ _ | .updateContractCode _ _ _ | .updateStorage _ _ _
  | .deleteStorage _ _ => true
  | _ => false

/-- Reads come before the commit, and the commit only writes and takes the roots. -/
def TrieQ.mode (committing : Bool) (q : TrieQ) : Option Bool :=
  match q with
  | .root _ => some committing
  | q => if q.writes then some true else if committing then none else some false

variable (keccak handle env emptyRoot) in
/-- The capture tries over the layers `ls` stand for tries written in place: while nothing is
captured, and, for the writes that are left, at the commit. -/
structure Shadows (b : Batch) (ls : List Layer) (committing : Bool) (d : CaptureDB) (τ : Tries) :
    Prop where
  view : d.v = View.source keccak handle env ⟨ls⟩
  clean : committing = false → d.ops = []
  tries : τ = Tries.over keccak handle env emptyRoot (newLayer { b with ops := d.ops } :: ls)

namespace Shadows

variable {b : Batch} {ls : List Layer} {m m' : Bool} {d : CaptureDB} {τ : Tries}

theorem new (b : Batch) (ls : List Layer) :
    Shadows keccak handle env emptyRoot b ls false (newCaptureDB (View.source keccak handle env ⟨ls⟩))
      (Tries.over keccak handle env emptyRoot ls) :=
  ⟨rfl, fun _ => rfl, (over_nil rfl ls).symm⟩

theorem committing (h : Shadows keccak handle env emptyRoot b ls m d τ) :
    Shadows keccak handle env emptyRoot b ls true d τ :=
  ⟨h.view, fun hf => (by cases hf), h.tries⟩

/-- A captured write. -/
theorem append (h : Shadows keccak handle env emptyRoot b ls m d τ) (op : Op) :
    Shadows keccak handle env emptyRoot b ls true (d.append op) (τ.write keccak emptyRoot op) := by
  refine ⟨h.view, fun hf => (by cases hf), ?_⟩
  rw [h.tries]
  exact (over_concat { b with ops := d.ops } op ls).symm

theorem setAccount (h : Shadows keccak handle env emptyRoot b ls m d τ) (addr : Address)
    (acct : StateAccount) :
    Shadows keccak handle env emptyRoot b ls true
      (d.append (.account addr (capturedAccount keccak acct)))
      (τ.setAccount keccak emptyRoot addr acct) := by
  have happ := h.append (.account addr (capturedAccount keccak acct))
  rw [Tries.write, stateAccount_captured] at happ
  exact happ

/-- Before the commit the tries are those of the view. -/
theorem reading (h : Shadows keccak handle env emptyRoot b ls false d τ) :
    τ = d.v.tries keccak emptyRoot := by
  have hnil : Tries.over keccak handle env emptyRoot (newLayer { b with ops := d.ops } :: ls) =
      Tries.over keccak handle env emptyRoot ls := over_nil (h.clean rfl) ls
  rw [h.tries, hnil, h.view]
  rfl

theorem step (h : Shadows keccak handle env emptyRoot b ls m d τ) {q : TrieQ}
    (hmode : q.mode m = some m') :
    (d.step keccak emptyRoot q).1 = (τ.step keccak emptyRoot q).1 ∧
      Shadows keccak handle env emptyRoot b ls m' (d.step keccak emptyRoot q).2
        (τ.step keccak emptyRoot q).2 := by
  -- what does not write is asked before the commit
  have hread : q.writes = false → (∀ t, q ≠ .root t) →
      τ = d.v.tries keccak emptyRoot ∧ Shadows keccak handle env emptyRoot b ls m' d τ := by
    intro hw hroot
    have hm : m = false ∧ m' = false := by
      cases q <;> cases m <;> simp_all [TrieQ.mode]
    obtain ⟨rfl, rfl⟩ := hm
    exact ⟨h.reading, h⟩
  have hwrite : q.writes = true → m' = true := by
    intro hw
    cases q <;> simp_all [TrieQ.mode, TrieQ.writes]
  cases q with
  | contractCode hash | contractCodeSize hash =>
    obtain ⟨rfl, hs⟩ := hread rfl (by simp)
    exact ⟨rfl, hs⟩
  | getAccount t addr =>
    obtain ⟨rfl, hs⟩ := hread rfl (by simp)
    cases t <;> exact ⟨rfl, hs⟩
  | getStorage t key =>
    obtain ⟨rfl, hs⟩ := hread rfl (by simp)
    cases t with
    | account => exact ⟨rfl, hs⟩
    | storage addr =>
      rw [CaptureDB.step, Tries.step]
      split <;> exact ⟨rfl, hs⟩
  | updateAccount t addr acct =>
    obtain rfl := hwrite rfl
    cases t with
    | account => exact ⟨rfl, h.setAccount addr acct⟩
    | storage a => exact ⟨rfl, h.committing⟩
  | deleteAccount t addr =>
    obtain rfl := hwrite rfl
    cases t with
    | account => exact ⟨rfl, h.append (.destruct addr)⟩
    | storage a => exact ⟨rfl, h.committing⟩
  | updateContractCode t hash code =>
    obtain rfl := hwrite rfl
    cases t with
    | account => exact ⟨rfl, h.append (.code hash code)⟩
    | storage a => exact ⟨rfl, h.committing⟩
  | updateStorage t key value =>
    obtain rfl := hwrite rfl
    cases t with
    | account => exact ⟨rfl, h.committing⟩
    | storage addr =>
      rw [CaptureDB.step, Tries.step]
      split
      · exact ⟨rfl, h.committing⟩
      · exact ⟨rfl, h.append (.slot addr (bytesToHash key) (bytesToHash value))⟩
  | deleteStorage t key =>
    obtain rfl := hwrite rfl
    cases t with
    | account => exact ⟨rfl, h.committing⟩
    | storage addr =>
      rw [CaptureDB.step, Tries.step]
      split
      · exact ⟨rfl, h.committing⟩
      · exact ⟨rfl, h.append (.deleteSlot addr (bytesToHash key))⟩
  | root t =>
    obtain rfl : m = m' := Option.some.inj hmode
    exact ⟨rfl, h⟩

end Shadows

variable (keccak handle env emptyRoot) in
/-- A program on the capture tries returns what it returns on tries written in place, and what
it has captured stands for them afterwards. -/
theorem run_captured {α : Type} {p : Prog TrieQ TrieQ.Ans α} (hp : p.Follows TrieQ.mode false)
    (b : Batch) (ls : List Layer) :
    (p.run (CaptureDB.step keccak emptyRoot) (newCaptureDB (View.source keccak handle env ⟨ls⟩))).1 =
        (p.run (Tries.step keccak emptyRoot) (Tries.over keccak handle env emptyRoot ls)).1 ∧
      (p.run (Tries.step keccak emptyRoot) (Tries.over keccak handle env emptyRoot ls)).2 =
        Tries.over keccak handle env emptyRoot
          (newLayer { b with ops := (p.run (CaptureDB.step keccak emptyRoot)
            (newCaptureDB (View.source keccak handle env ⟨ls⟩))).2.ops } :: ls) := by
  have hstep : ∀ m q m' d τ, TrieQ.mode m q = some m' → Shadows keccak handle env emptyRoot b ls m d τ →
      (d.step keccak emptyRoot q).1 = (τ.step keccak emptyRoot q).1 ∧
        Shadows keccak handle env emptyRoot b ls m' (d.step keccak emptyRoot q).2
          (τ.step keccak emptyRoot q).2 :=
    fun _ _ _ _ _ hmode h => h.step hmode
  obtain ⟨hres, m, hend⟩ := Prog.run_agrees hstep hp (Shadows.new b ls)
  exact ⟨hres, hend.tries⟩

end Refine

/-! ## Chains of executed blocks -/

/-- The layers from a hash down to the root. -/
structure Stack (e : Executor) (root h : Hash) (es : List (Hash × Layer)) : Prop where
  path : e.pending.Path Layer.parent root h es
  nodup : (es.map Prod.fst).Nodup
  bottom : e.pending.get root = none
  dry : e.dryBase = none

section Stack

variable {e : Executor} {root h : Hash} {es : List (Hash × Layer)}

theorem Stack.viewAt (hs : Stack e root h es) : e.viewAt h = ⟨es.map Prod.snd⟩ := by
  have hlen : es.length ≤ e.pending.size := by
    rw [← List.length_map (f := Prod.fst)]
    refine Table.length_le_size hs.nodup fun k hk => ?_
    obtain ⟨x, hx, rfl⟩ := List.mem_map.mp hk
    rw [hs.path.bound x hx]
    simp
  rw [Executor.viewAt, walk_of_path hs.path hs.bottom hlen, hs.dry]
  simp

/-- A block under a new hash goes on top. -/
theorem Stack.record (hs : Stack e root h es) {b : Batch} (hb : b.parent = h)
    (hnew : e.pending.get b.hash = none) (hroot : b.hash ≠ root) :
    Stack (e.record b) root b.hash ((b.hash, newLayer b) :: es) where
  path := by
    refine .step hroot (Table.get_set_self _ _ _) ?_
    rw [(newLayer_block_parent b).2, hb]
    -- the layers below are under other hashes
    have hkeep : ∀ x ∈ es, (e.record b).pending.get x.1 = some x.2 := by
      intro x hx
      have hget := hs.path.bound x hx
      rw [Executor.record]
      dsimp only
      rw [Table.get_set_of_ne, hget]
      intro heq
      rw [heq, hnew] at hget
      cases hget
    have hmap : (e.record b).pending.Path Layer.parent root h (es.map fun x => (x.1, id x.2)) :=
      hs.path.map (fun _ => rfl) hkeep
    simpa using hmap
  nodup := by
    refine List.nodup_cons.mpr ⟨fun hmem => ?_, hs.nodup⟩
    obtain ⟨x, hx, heq⟩ := List.mem_map.mp hmem
    have hget := hs.path.bound x hx
    rw [heq, hnew] at hget
    cases hget
  bottom := by
    rw [Executor.record]
    dsimp only
    rw [Table.get_set_of_ne _ _ (Ne.symm hroot)]
    exact hs.bottom
  dry := hs.dry

end Stack

/-- Blocks of consecutive numbers after `n`, under hashes that are not pending. -/
def Ahead (e : Executor) (root : Hash) : UInt64 → List EthBlock → Prop
  | _, [] => True
  | n, blk :: blks =>
    n = blk.number - 1 ∧ e.pending.get blk.hash = none ∧ blk.hash ≠ root ∧
      (∀ b ∈ blks, b.hash ≠ blk.hash) ∧ Ahead e root blk.number blks

theorem Ahead.record {e : Executor} {root : Hash} {n : UInt64} {blks : List EthBlock}
    (h : Ahead e root n blks) {b : Batch} (hne : ∀ blk ∈ blks, blk.hash ≠ b.hash) :
    Ahead (e.record b) root n blks := by
  induction blks generalizing n with
  | nil => trivial
  | cons blk blks ih =>
    obtain ⟨hn, hnew, hroot, hdistinct, hrest⟩ := h
    refine ⟨hn, ?_, hroot, hdistinct, ih hrest fun x hx => hne x (List.mem_cons_of_mem _ hx)⟩
    rw [Executor.record]
    dsimp only
    rw [Table.get_set_of_ne _ _ (hne blk List.mem_cons_self)]
    exact hnew

/-- Blocks that the executor executes on top of each other, each on capture tries over the
layers of those below it, fail where and as they fail on tries that are written in place, and
otherwise leave a view that stands for the same tries; as long as the transition reads before
it commits. -/
theorem executed_blocks_refine_in_place {ρ : Type} (t : Transition ρ) (keccak : Bytes → Hash)
    (emptyRoot : Hash) (ht : ∀ blk, (t.run blk).Follows TrieQ.mode false) (handle : Handle) (env : Env)
    {e : Executor} {root h : Hash} {es : List (Hash × Layer)} (hs : Stack e root h es) {n : UInt64}
    (hheader : e.headers.get h = some n) {blks : List EthBlock} (hblks : Ahead e root n blks) :
    (t.executeAll keccak emptyRoot handle env e h blks).map
        (fun r => Tries.over keccak handle env emptyRoot (r.1.viewAt r.2).layers) =
      t.inPlaceAll keccak emptyRoot (Tries.over keccak handle env emptyRoot (e.viewAt h).layers)
        blks := by
  induction blks generalizing e h es n with
  | nil => rfl
  | cons blk blks ih =>
    obtain ⟨rfl, hnew, hroot, hdistinct, hrest⟩ := hblks
    obtain ⟨hres, hend⟩ :=
      run_captured keccak handle env emptyRoot (ht blk) (blk.batch h []) (es.map Prod.snd)
    have hrun : (t.evm keccak emptyRoot (View.code env ⟨es.map Prod.snd⟩)).run
        (readKey keccak handle env ⟨es.map Prod.snd⟩) blk =
        ((t.run blk).run (CaptureDB.step keccak emptyRoot)
          (newCaptureDB (View.source keccak handle env ⟨es.map Prod.snd⟩))).1.map fun x =>
            (((t.run blk).run (CaptureDB.step keccak emptyRoot)
              (newCaptureDB (View.source keccak handle env ⟨es.map Prod.snd⟩))).2.ops, x.1, x.2) := rfl
    rw [Transition.executeAll, Transition.inPlaceAll, Executor.execute, hheader, hs.viewAt]
    dsimp only
    rw [if_neg (by simp), Evm.ops, hrun]
    generalize (t.run blk).run (CaptureDB.step keccak emptyRoot)
      (newCaptureDB (View.source keccak handle env ⟨es.map Prod.snd⟩)) = r at hres hend ⊢
    generalize (t.run blk).run (Tries.step keccak emptyRoot)
      (Tries.over keccak handle env emptyRoot (es.map Prod.snd)) = r' at hres hend ⊢
    obtain ⟨res, d⟩ := r
    obtain ⟨res', τ⟩ := r'
    obtain rfl : res = res' := hres
    obtain rfl : τ = _ := hend
    cases res with
    | none => rfl
    | some x =>
      have hval : (t.evm keccak emptyRoot (View.code env ⟨es.map Prod.snd⟩)).validate blk x.1 x.2 =
        t.validate blk x.1 x.2 := rfl
      dsimp only [Option.map_some]
      rw [hval]
      cases t.validate blk x.1 x.2 with
      | error err => rfl
      | ok u =>
        have hstack := hs.record (b := blk.batch h d.ops) rfl hnew hroot
        have hgo := ih hstack (Table.get_set_self _ _ _) (hrest.record hdistinct)
        rw [hstack.viewAt] at hgo
        exact hgo

namespace Sample

open Store.Sample (addr slot1 block6)

/-- A transition that clears a slot and pays for what was in it. -/
def clear : Transition Unit where
  run _ := .ask (.getStorage (.storage addr) slot1.1) fun x =>
    .ask (.deleteStorage (.storage addr) slot1.1) fun _ =>
      .ret (x.toOption.map fun v => (UInt64.ofNat ((v.getD []).length), ()))
  receiptsRoot _ := Hash.zero
  bloom _ := []

/-- The block that says how much gas it has used. -/
def paying (number gasUsed : UInt64) : EthBlock where
  hash := FixedBytes.ofNat 32 number.toNat
  parentHash := FixedBytes.ofNat 32 (number.toNat - 1)
  number := number
  time := 0
  gasUsed := gasUsed
  receiptHash := Hash.zero
  bloom := []
  body := []

theorem clear_follows (blk : EthBlock) : (clear.run blk).Follows TrieQ.mode false :=
  .ask rfl fun _ => .ask rfl fun _ => .ret _ _

/-- An executor that has executed block 6. -/
def after6 : Executor := Executor.new.record block6

theorem after6_stack : Stack after6 block6.parent block6.hash [(block6.hash, newLayer block6)] :=
  Stack.record ⟨.root, List.nodup_nil, rfl, rfl⟩ rfl rfl (by decide +kernel)

theorem after6_ahead : Ahead after6 block6.parent 6 [paying 7 32, paying 8 0] := by
  refine ⟨rfl, by rfl, by decide +kernel, ?_, rfl, by rfl, by decide +kernel, by simp, trivial⟩
  intro b hb
  rw [List.mem_singleton.mp hb]
  decide +kernel

end Sample

open Sample in
/-- The theorem at work, on top of a block that sets the slot: the first block pays for it, the
second finds it cleared. -/
theorem executed_blocks_refine_in_place_sample :
    ∃ r, clear.executeAll Store.Sample.digest Hash.zero {} OrdMap.empty after6 Store.Sample.block6.hash
        [paying 7 32, paying 8 0] = .ok r ∧
      (Tries.over Store.Sample.digest {} OrdMap.empty Hash.zero (r.1.viewAt r.2).layers).storage
        Store.Sample.addr Store.Sample.slot1 = .ok none := by
  have h := executed_blocks_refine_in_place clear Store.Sample.digest Hash.zero clear_follows {}
    OrdMap.empty after6_stack rfl after6_ahead
  obtain ⟨τ, hτ, hslot⟩ : ∃ τ, clear.inPlaceAll Store.Sample.digest Hash.zero
      (Tries.over Store.Sample.digest {} OrdMap.empty Hash.zero
        (after6.viewAt Store.Sample.block6.hash).layers)
      [paying 7 32, paying 8 0] = .ok τ ∧
        τ.storage Store.Sample.addr Store.Sample.slot1 = .ok none := ⟨_, rfl, rfl⟩
  rw [hτ] at h
  cases hr : clear.executeAll Store.Sample.digest Hash.zero {} OrdMap.empty after6
      Store.Sample.block6.hash [paying 7 32, paying 8 0] with
  | error e =>
    rw [hr] at h
    cases h
  | ok r =>
    rw [hr] at h
    refine ⟨r, rfl, ?_⟩
    have heq : Tries.over Store.Sample.digest {} OrdMap.empty Hash.zero (r.1.viewAt r.2).layers = τ :=
      Except.ok.inj h
    rw [heq]
    exact hslot

end Flatstate.Exec
