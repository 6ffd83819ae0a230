import Flatstate.Foundation.Bytes
import Flatstate.Foundation.Holders
import Mathlib.Data.List.Rotate
import Mathlib.Logic.Relation

set_option autoImplicit false

/-!
# Sync: the request client (`follower/sync/netclient.go`)

Any number of goroutines call `SendSyncedAppRequest` or `SendSyncedAppRequestAny`, and the
network calls `OnAppResponse` whenever a peer answers, or claims to.  A call waits for the
global in-flight cap, takes an even request ID, lists its channel under the ID, sends, and
leaves with the reply, a timeout or the end of its context; deferred functions undo what it
took.  Every section under a lock is one step here, and every channel operation.

The channel of a call is known by the position of the call.  Nothing is assumed about the
peers: responses come at any time, for any ID, any number of times.
-/

namespace Flatstate.Sync.NetClient

open Foundation

/-! ## The client -/

/-- `ids.NodeID`. -/
abbrev NodeID := FixedBytes 20

/-- `appReply`. -/
structure AppReply where
  bytes : Bytes
  failed : Bool
  deriving DecidableEq

inductive ReqErr where
  /-- "sync: no responsive peer available" -/
  | noPeer
  /-- "sync: peer answered with AppError" -/
  | appRequestFailed
  /-- "sync: request timed out: request %d to %s" -/
  | timeout (id : UInt32) (node : NodeID)
  /-- `SendAppRequest` could not make the message -/
  | send
  /-- `ctx.Err()` -/
  | ctx
  deriving DecidableEq

/-- What a call returns. -/
abbrev Outcome := Except ReqErr Bytes

/-- The outcomes that put the peer out of rotation. -/
def cools : Outcome → Bool
  | .error .appRequestFailed => true
  | .error (.timeout _ _) => true
  | _ => false

/-- What a reply makes the call return. -/
def AppReply.outcome (a : AppReply) : Outcome :=
  if a.failed then .error .appRequestFailed else .ok a.bytes

/-- `badPeerCooldown`, in nanoseconds. -/
def badPeerCooldown : Nat := 180000000000

/-- The capacity of the semaphore and the cap per peer. -/
structure Limits where
  inflight : Nat
  perPeer : Nat
  inflight_pos : 0 < inflight

/-- The limits of `NewNetClient`, with its defaults. -/
def Limits.of (inflight perPeer : Int) : Limits where
  inflight := if inflight ≤ 0 then 320 else inflight.toNat
  perPeer := if perPeer ≤ 0 then 6 else perPeer.toNat
  inflight_pos := by
    split
    · decide
    · omega

/-- `NetClient`. -/
structure Client where
  reqID : UInt32
  /-- how many tokens are in `sem` -/
  sem : Nat
  timeouts : UInt64
  pending : Table UInt32 Nat
  outstanding : Table NodeID Nat
  badUntil : Table NodeID Nat
  /-- ghost: the requests that were sent -/
  wire : List (NodeID × UInt32)

/-- `NewNetClient`. -/
def Client.new : Client := ⟨0, 0, 0, Table.empty, Table.empty, Table.empty, []⟩

/-- The loop of `pickPeer`, with its fallback: the first peer with room that is not cooling
down, else the first one with room. -/
def Client.scan (c : Client) (perPeer now : Nat) : List NodeID → Option NodeID → Option NodeID
  | [], fallback => fallback
  | id :: ids, fallback =>
    if perPeer ≤ c.outstanding.count id then c.scan perPeer now ids fallback
    else if now < c.badUntil.count id then c.scan perPeer now ids (fallback.or (some id))
    else some id

/-- `NetClient.pickPeer` at the time `now`, from the offset `off` on. -/
def Client.pickPeer (c : Client) (perPeer now off : Nat) (peers : List NodeID) :
    Option NodeID × Client :=
  match c.scan perPeer now (peers.rotate off) none with
  | none => (none, c)
  | some id => (some id, { c with outstanding := c.outstanding.incr id })

/-- `NetClient.releasePeer`. -/
def Client.releasePeer (c : Client) (id : NodeID) : Client :=
  { c with outstanding := c.outstanding.decr id }

/-! ## Calls -/

/-- What a call does next. -/
inductive Stage where
  /-- `c.sem <- struct{}{}` or `ctx.Done` -/
  | acquire
  /-- `c.reqID.Add(1) * 2` -/
  | number
  /-- `c.pending[id] = ch` -/
  | register
  /-- `SendAppRequest` -/
  | send
  /-- the reply, the timer or `ctx.Done` -/
  | wait
  /-- `delete(c.pending, id)` -/
  | unregister (r : Outcome)
  /-- `<-c.sem` -/
  | release (r : Outcome)
  /-- `c.badUntil[nodeID] = ...` -/
  | cool (r : Outcome)
  /-- `releasePeer` -/
  | unpick (r : Outcome)
  | returned (r : Outcome)
  deriving DecidableEq

/-- One call. -/
structure Call where
  node : NodeID
  /-- made by `SendSyncedAppRequestAny`, so that the peer is counted -/
  picked : Bool
  stage : Stage
  /-- 0 before it is numbered -/
  id : UInt32
  /-- what is in its channel -/
  chan : Option AppReply

def Call.new (node : NodeID) (picked : Bool) : Call := ⟨node, picked, .acquire, 0, none⟩

/-- `ids.EmptyNodeID` and `errNoPeer`. -/
def Call.refused : Call := ⟨FixedBytes.zero 20, false, .returned (.error .noPeer), 0, none⟩

/-- Where a call goes when `SendSyncedAppRequest` has returned. -/
def Call.after (k : Call) (r : Outcome) : Stage :=
  if k.picked then (if cools r then .cool r else .unpick r) else .returned r

/-- A step of the call whose channel is `i`. -/
inductive CallStep (lim : Limits) (i : Nat) :
    Client → Call → Client → Call → Prop where
  | acquire {c : Client} {k : Call} (hs : k.stage = .acquire) (hroom : c.sem < lim.inflight) :
      CallStep lim i c k { c with sem := c.sem + 1 } { k with stage := .number }
  | acquireCancel {c : Client} {k : Call} (hs : k.stage = .acquire) :
      CallStep lim i c k c { k with stage := k.after (.error .ctx) }
  | number {c : Client} {k : Call} (hs : k.stage = .number) :
      CallStep lim i c k { c with reqID := c.reqID + 1 }
        { k with stage := .register, id := (c.reqID + 1) * 2 }
  | register {c : Client} {k : Call} (hs : k.stage = .register) :
      CallStep lim i c k { c with pending := c.pending.set k.id i } { k with stage := .send }
  | sendFails {c : Client} {k : Call} (hs : k.stage = .send) :
      CallStep lim i c k c { k with stage := .unregister (.error .send) }
  | sent {c : Client} {k : Call} (hs : k.stage = .send) :
      CallStep lim i c k { c with wire := c.wire ++ [(k.node, k.id)] } { k with stage := .wait }
  | reply {c : Client} {k : Call} {a : AppReply} (hs : k.stage = .wait) (ha : k.chan = some a) :
      CallStep lim i c k c { k with stage := .unregister a.outcome, chan := none }
  | timeout {c : Client} {k : Call} (hs : k.stage = .wait) :
      CallStep lim i c k { c with timeouts := c.timeouts + 1 }
        { k with stage := .unregister (.error (.timeout k.id k.node)) }
  | waitCancel {c : Client} {k : Call} (hs : k.stage = .wait) :
      CallStep lim i c k c { k with stage := .unregister (.error .ctx) }
  | unregister {c : Client} {k : Call} {r : Outcome} (hs : k.stage = .unregister r) :
      CallStep lim i c k { c with pending := c.pending.erase k.id }
        { k with stage := .release r }
  | release {c : Client} {k : Call} {r : Outcome} (hs : k.stage = .release r) :
      CallStep lim i c k { c with sem := c.sem - 1 } { k with stage := k.after r }
  | cool {c : Client} {k : Call} {r : Outcome} (hs : k.stage = .cool r) (now : Nat) :
      CallStep lim i c k
        { c with badUntil := c.badUntil.set k.node (now + badPeerCooldown) }
        { k with stage := .unpick r }
  | unpick {c : Client} {k : Call} {r : Outcome} (hs : k.stage = .unpick r) :
      CallStep lim i c k (c.releasePeer k.node) { k with stage := .returned r }

/-! ## The system -/

/-- The client, its calls, and the responses that are being handed over. -/
structure Sys where
  client : Client
  calls : List Call
  /-- `OnAppResponse` between its locked part and its send, by channel -/
  sending : List (Nat × AppReply)
  /-- ghost: the responses so far, and the channel that each was for -/
  heard : List (UInt32 × AppReply × Option Nat)

def Sys.start : Sys := ⟨Client.new, [], [], []⟩

/-- The start of `SendSyncedAppRequestAny`. -/
def Sys.sendAny (s : Sys) (perPeer now off : Nat) (peers : List NodeID) : Sys :=
  match s.client.pickPeer perPeer now off peers with
  | (none, c) => { s with client := c, calls := s.calls ++ [Call.refused] }
  | (some id, c) => { s with client := c, calls := s.calls ++ [Call.new id true] }

/-- The locked part of `OnAppResponse`. -/
def Sys.onAppResponse (s : Sys) (requestID : UInt32) (a : AppReply) : Sys where
  client := { s.client with pending := s.client.pending.erase requestID }
  calls := s.calls
  sending := s.sending ++ ((s.client.pending.get requestID).map (fun i => (i, a))).toList
  heard := s.heard ++ [(requestID, a, s.client.pending.get requestID)]

/-- The steps of calls, and the sends of `OnAppResponse`, which need room in the channel. -/
inductive Inner (lim : Limits) : Sys → Sys → Prop where
  | call {s : Sys} {i : Nat} {k k' : Call} {c' : Client} (hk : s.calls[i]? = some k)
      (h : CallStep lim i s.client k c' k') :
      Inner lim s { s with client := c', calls := s.calls.set i k' }
  | deliver {s : Sys} {l r : List (Nat × AppReply)} {i : Nat} {a : AppReply} {k : Call}
      (hs : s.sending = l ++ (i, a) :: r) (hk : s.calls[i]? = some k) (hroom : k.chan = none) :
      Inner lim s
        { s with calls := s.calls.set i { k with chan := some a }, sending := l ++ r }

/-- What others do: new calls, and responses. -/
inductive Outer (lim : Limits) : Sys → Sys → Prop where
  | any {s : Sys} (now off : Nat) (peers : List NodeID) :
      Outer lim s (s.sendAny lim.perPeer now off peers)
  | direct {s : Sys} (node : NodeID) :
      Outer lim s { s with calls := s.calls ++ [Call.new node false] }
  | response {s : Sys} (requestID : UInt32) (a : AppReply) :
      Outer lim s (s.onAppResponse requestID a)

inductive Step (lim : Limits) : Sys → Sys → Prop where
  | inner {s s' : Sys} (h : Inner lim s s') : Step lim s s'
  | outer {s s' : Sys} (h : Outer lim s s') : Step lim s s'

/-- What a run reaches. -/
def Reaches (lim : Limits) (s : Sys) : Prop :=
  Relation.ReflTransGen (Step lim) .start s

section

variable {lim : Limits} {s s' : Sys}

/-- The rule for what holds in all runs. -/
theorem Reaches.rule {I : Sys → Prop} (h : Reaches lim s) (hstart : I .start)
    (hinner : ∀ s s', I s → Inner lim s s' → I s')
    (houter : ∀ s s', I s → Outer lim s s' → I s') : I s := by
  induction h with
  | refl => exact hstart
  | tail _ hstep ih =>
    cases hstep with
    | inner h => exact hinner _ _ ih h
    | outer h => exact houter _ _ ih h

/-! ## A sample run

One call for one peer, up to its wait, and on to its return. -/

namespace Sample

def node : NodeID := FixedBytes.ofNat 20 1

def limits : Limits := Limits.of 2 1

def reply : AppReply := ⟨[7], false⟩

/-- The request is sent. -/
def waiting : Sys where
  client := ⟨1, 1, 0, Table.empty.set 2 0, Table.empty.incr node, Table.empty, [(node, 2)]⟩
  calls := [⟨node, true, .wait, 2, none⟩]
  sending := []
  heard := []

/-- The reply is taken, but not handed over. -/
def answering : Sys := waiting.onAppResponse 2 reply

/-- The call has returned. -/
def done : Sys where
  client := { answering.client with
    sem := 0
    pending := answering.client.pending.erase 2
    outstanding := answering.client.outstanding.decr node }
  calls := [⟨node, true, .returned (.ok [7]), 2, none⟩]
  sending := []
  heard := [(2, reply, some 0)]

theorem waiting_reached : Reaches limits waiting := by
  have hpicked : Reaches limits (Sys.start.sendAny 1 0 0 [node]) :=
    .tail .refl (.outer (.any 0 0 [node]))
  have htoken := hpicked.tail (.inner (.call (i := 0) rfl (.acquire rfl (by decide))))
  have hnumber := htoken.tail (.inner (.call (i := 0) rfl (.number rfl)))
  have hlisted := hnumber.tail (.inner (.call (i := 0) rfl (.register rfl)))
  exact hlisted.tail (.inner (.call (i := 0) rfl (.sent rfl)))

theorem answering_reached : Reaches limits answering :=
  waiting_reached.tail (.outer (.response 2 reply))

theorem done_reached : Reaches limits done := by
  have hgiven := answering_reached.tail (.inner (.deliver (l := []) (i := 0) rfl rfl rfl))
  have hgot := hgiven.tail (.inner (.call (i := 0) rfl (.reply rfl rfl)))
  have hgone := hgot.tail (.inner (.call (i := 0) rfl (.unregister rfl)))
  have hfree := hgone.tail (.inner (.call (i := 0) rfl (.release rfl)))
  exact hfree.tail (.inner (.call (i := 0) rfl (.unpick rfl)))

end Sample

/-! ## Picking a peer -/

/-- The scan stops at a healthy peer with room, or falls back. -/
theorem scan_cases (c : Client) (perPeer now : Nat) (peers : List NodeID)
    (fallback : Option NodeID) :
    (∃ id ∈ peers, c.scan perPeer now peers fallback = some id ∧
      c.outstanding.count id < perPeer ∧ c.badUntil.count id ≤ now) ∨
    ((∀ id ∈ peers, c.outstanding.count id < perPeer → now < c.badUntil.count id) ∧
      c.scan perPeer now peers fallback =
        fallback.or (peers.find? (fun id => c.outstanding.count id < perPeer))) := by
  induction peers generalizing fallback with
  | nil => exact Or.inr ⟨by simp, by simp [Client.scan]⟩
  | cons id ids ih =>
    rw [Client.scan]
    split
    · rename_i hfull
      rcases ih fallback with ⟨x, hx, hscan⟩ | ⟨hbad, hscan⟩
      · exact Or.inl ⟨x, List.mem_cons_of_mem _ hx, hscan⟩
      · refine Or.inr ⟨List.forall_mem_cons.mpr ⟨fun hlt => by omega, hbad⟩, ?_⟩
        rw [hscan, List.find?_cons_of_neg (by simpa using hfull)]
    · rename_i hroom
      split
      · rename_i hcool
        rcases ih (fallback.or (some id)) with ⟨x, hx, hscan⟩ | ⟨hbad, hscan⟩
        · exact Or.inl ⟨x, List.mem_cons_of_mem _ hx, hscan⟩
        · refine Or.inr ⟨List.forall_mem_cons.mpr ⟨fun _ => hcool, hbad⟩, ?_⟩
          rw [hscan, List.find?_cons_of_pos (by simpa using hroom), Option.or_assoc, Option.some_or]
      · rename_i hwell
        exact Or.inl ⟨id, List.mem_cons_self, rfl, by omega, by omega⟩

/-- What `pickPeer` promises: nobody is picked only if every connected peer is saturated;
a peer that is picked has room, and one that cools down is picked only when every peer with
room does. -/
def Picked (c : Client) (perPeer now : Nat) (peers : List NodeID) : Option NodeID → Prop
  | none => ∀ id ∈ peers, perPeer ≤ c.outstanding.count id
  | some id => id ∈ peers ∧ c.outstanding.count id < perPeer ∧
      (now < c.badUntil.count id →
        ∀ x ∈ peers, c.outstanding.count x < perPeer → now < c.badUntil.count x)

theorem pickPeer_fst (c : Client) (perPeer now off : Nat) (peers : List NodeID) :
    (c.pickPeer perPeer now off peers).1 = c.scan perPeer now (peers.rotate off) none := by
  rw [Client.pickPeer]
  cases c.scan perPeer now (peers.rotate off) none <;> rfl

/-- A healthy peer with room goes first, whatever the offset. -/
theorem pickPeer_prefers_healthy (c : Client) (perPeer now off : Nat) (peers : List NodeID) :
    Picked c perPeer now peers (c.pickPeer perPeer now off peers).1 := by
  rw [pickPeer_fst]
  rcases scan_cases c perPeer now (peers.rotate off) none with
    ⟨id, hmem, hscan, hroom, hwell⟩ | ⟨hbad, hscan⟩
  · rw [hscan]
    exact ⟨List.mem_rotate.mp hmem, hroom, fun hcool => absurd hcool (by omega)⟩
  · rw [hscan, Option.none_or]
    cases hfind : (peers.rotate off).find? (fun id => c.outstanding.count id < perPeer) with
    | none =>
      intro id hid
      have hfull := List.find?_eq_none.mp hfind id (List.mem_rotate.mpr hid)
      simpa using hfull
    | some id =>
      have hroom := List.find?_some hfind
      refine ⟨List.mem_rotate.mp (List.mem_of_find?_eq_some hfind), by simpa using hroom, ?_⟩
      intro _ x hx
      exact hbad x (List.mem_rotate.mpr hx)

/-! ## What calls hold -/

/-- A call between its two operations on the semaphore. -/
def Call.token (k : Call) : Bool :=
  match k.stage with
  | .number | .register | .send | .wait | .unregister _ | .release _ => true
  | _ => false

/-- The peer that is counted for a call. -/
def Call.peer (k : Call) : Option NodeID :=
  match k.stage with
  | .returned _ => none
  | .cool _ | .unpick _ => some k.node
  | _ => if k.picked then some k.node else none

/-- The semaphore and the counters are right, and within their limits. -/
structure Held (lim : Limits) (c : Client) (calls : List Call) : Prop where
  sem : c.sem = calls.countP Call.token
  inflight : c.sem ≤ lim.inflight
  tallies : Tallies Call.peer calls c.outstanding
  perPeer : ∀ id, c.outstanding.count id ≤ lim.perPeer

/-- After `SendSyncedAppRequest` the token is back; the peer is counted on. -/
theorem after_holds (k : Call) (r : Outcome) :
    Call.token { k with stage := k.after r } = false ∧
      Call.peer { k with stage := k.after r } = if k.picked then some k.node else none := by
  unfold Call.after
  cases hp : k.picked with
  | false => simp [Call.token, Call.peer]
  | true =>
    cases hc : cools r <;> simp [Call.token, Call.peer]

/-- A call that moves on with what it holds. -/
theorem Held.keep {c c' : Client} {calls : List Call} (h : Held lim c calls) {i : Nat} {k k' : Call}
    (hk : calls[i]? = some k) (ht : k'.token = k.token) (hp : k'.peer = k.peer)
    (hsem : c'.sem = c.sem) (hout : c'.outstanding = c.outstanding) :
    Held lim c' (calls.set i k') where
  sem := by rw [hsem, h.sem, countP_set_of_eq hk ht]
  inflight := by rw [hsem]; exact h.inflight
  tallies := by rw [hout]; exact h.tallies.keep hk hp
  perPeer := by rw [hout]; exact h.perPeer

theorem Held.callStep {c c' : Client} {calls : List Call} (h : Held lim c calls) {i : Nat}
    {k k' : Call} (hk : calls[i]? = some k) (hs : CallStep lim i c k c' k') :
    Held lim c' (calls.set i k') := by
  have hadd := countP_set_add Call.token hk k'
  cases hs with
  | acquire hs hroom =>
    refine ⟨?_, hroom, h.tallies.keep hk (by simp [Call.peer, hs]), h.perPeer⟩
    simp only [Call.token, hs] at hadd
    have hsem := h.sem
    simp at hadd
    dsimp only
    omega
  | acquireCancel hs =>
    obtain ⟨ht, hp⟩ := after_holds k (.error .ctx)
    exact h.keep hk (ht.trans (by simp [Call.token, hs])) (hp.trans (by simp [Call.peer, hs])) rfl rfl
  | release hs =>
    rename_i r
    obtain ⟨ht, hp⟩ := after_holds k r
    refine ⟨?_, ?_, h.tallies.keep hk (hp.trans (by simp [Call.peer, hs])), h.perPeer⟩
    · rw [ht] at hadd
      simp only [Call.token, hs] at hadd
      have hsem := h.sem
      simp at hadd
      dsimp only
      omega
    · have hle := h.inflight
      dsimp only
      omega
  | unpick hs =>
    have ht : Call.token { k with stage := .returned ‹Outcome› } = k.token := by
      simp [Call.token, hs]
    refine ⟨by rw [countP_set_of_eq hk ht]; exact h.sem, h.inflight,
      h.tallies.release hk (by simp [Call.peer, hs]) (by simp [Call.peer]), fun id => ?_⟩
    have hle := h.perPeer id
    rw [Client.releasePeer, Table.count_decr]
    omega
  | number hs | register hs | sendFails hs | sent hs | timeout hs | waitCancel hs
  | unregister hs | reply hs _ | cool hs _ =>
    exact h.keep hk (by simp [Call.token, hs]) (by simp [Call.peer, hs]) rfl rfl

theorem Held.join {c : Client} {calls : List Call} (h : Held lim c calls) {k : Call}
    (ht : k.token = false) (hp : k.peer = none) : Held lim c (calls ++ [k]) where
  sem := by
    rw [List.countP_append, ← h.sem]
    simp [ht]
  inflight := h.inflight
  tallies := h.tallies.join hp
  perPeer := h.perPeer

theorem Held.sendAny (h : Held lim s.client s.calls) (now off : Nat) (peers : List NodeID) :
    Held lim (s.sendAny lim.perPeer now off peers).client
      (s.sendAny lim.perPeer now off peers).calls := by
  have hpick := pickPeer_prefers_healthy s.client lim.perPeer now off peers
  unfold Sys.sendAny
  unfold Client.pickPeer at hpick ⊢
  cases hscan : s.client.scan lim.perPeer now (peers.rotate off) none with
  | none => exact h.join rfl rfl
  | some id =>
    rw [hscan] at hpick
    obtain ⟨-, hroom, -⟩ := hpick
    refine ⟨?_, h.inflight, h.tallies.joinWith rfl, fun x => ?_⟩
    · rw [List.countP_append, ← h.sem]
      rfl
    · have hle := h.perPeer x
      dsimp only
      rw [Table.count_incr]
      split
      · rename_i hx
        rw [hx]
        omega
      · omega

theorem Reaches.held (h : Reaches lim s) : Held lim s.client s.calls := by
  refine h.rule (I := fun s => Held lim s.client s.calls)
    ⟨rfl, Nat.zero_le _, Tallies.start, fun _ => Nat.zero_le _⟩ ?_ ?_
  · intro s s' ih hstep
    cases hstep with
    | call hk hs => exact ih.callStep hk hs
    | deliver hs hk hroom => exact ih.keep hk rfl rfl rfl rfl
  · intro s s' ih hstep
    cases hstep with
    | any now off peers => exact ih.sendAny now off peers
    | direct node => exact ih.join rfl rfl
    | response requestID a => exact ⟨ih.sem, ih.inflight, ih.tallies, ih.perPeer⟩

/-- In every interleaving the semaphore holds one token for each call between its two
operations, never more than its capacity; and a peer is counted once for each call that was
given it, never above the cap. -/
theorem requests_within_limits (h : Reaches lim s) :
    s.client.sem = s.calls.countP Call.token ∧ s.client.sem ≤ lim.inflight ∧
      ∀ id, s.client.outstanding.count id = s.calls.countP (fun k => k.peer = some id) ∧
        s.client.outstanding.count id ≤ lim.perPeer :=
  ⟨h.held.sem, h.held.inflight, fun id => ⟨h.held.tallies.count id, h.held.perPeer id⟩⟩

theorem requests_within_limits_sample :
    Sample.waiting.client.sem = Sample.waiting.calls.countP Call.token ∧
      Sample.waiting.client.sem ≤ Sample.limits.inflight ∧
      ∀ id, Sample.waiting.client.outstanding.count id =
          Sample.waiting.calls.countP (fun k => k.peer = some id) ∧
        Sample.waiting.client.outstanding.count id ≤ Sample.limits.perPeer :=
  requests_within_limits Sample.waiting_reached

/-! ## Replies -/

/-- Before `c.pending[id] = ch`. -/
def Stage.early : Stage → Bool
  | .acquire | .number | .register => true
  | _ => false

/-- From then to `delete(c.pending, id)`. -/
def Stage.listed : Stage → Bool
  | .send | .wait | .unregister _ => true
  | _ => false

/-- What a call is going to return, or has. -/
def Stage.outcome : Stage → Option Outcome
  | .unregister r | .release r | .cool r | .unpick r | .returned r => some r
  | _ => none

theorem after_outcome (k : Call) (r : Outcome) : (k.after r).outcome = some r := by
  unfold Call.after
  split
  · split <;> rfl
  · rfl

theorem after_stage (k : Call) (r : Outcome) :
    (k.after r).early = false ∧ (k.after r).listed = false := by
  unfold Call.after
  split
  · split <;> exact ⟨rfl, rfl⟩
  · exact ⟨rfl, rfl⟩

/-- The calls that were given a response. -/
def Sys.answered (s : Sys) : List Nat := s.heard.filterMap (fun e => e.2.2)

/-- A response came for the call and its ID. -/
def Sys.Heard (s : Sys) (i : Nat) (k : Call) (a : AppReply) : Prop := (k.id, a, some i) ∈ s.heard

theorem Sys.Heard.answered {i : Nat} {k : Call} {a : AppReply} (h : s.Heard i k a) :
    i ∈ s.answered := List.mem_filterMap.mpr ⟨_, h, rfl⟩

/-- What the replies of the calls rest on. -/
structure Mail (s : Sys) : Prop where
  /-- a listed channel is that of a call with this ID, which has no response yet -/
  pending : ∀ x i, s.client.pending.get x = some i →
    i ∉ s.answered ∧ ∃ k, s.calls[i]? = some k ∧ k.stage.listed = true ∧ k.id = x
  /-- a response is handed over into an empty channel -/
  sending : ∀ e ∈ s.sending, ∃ k, s.calls[e.1]? = some k ∧ k.chan = none ∧ s.Heard e.1 k e.2
  sendingOnce : (s.sending.map Prod.fst).Nodup
  once : s.answered.Nodup
  early : ∀ i k, s.calls[i]? = some k → k.stage.early = true → i ∉ s.answered
  known : ∀ i ∈ s.answered, i < s.calls.length
  chan : ∀ i k a, s.calls[i]? = some k → k.chan = some a → s.Heard i k a
  outcome : ∀ i k, s.calls[i]? = some k →
    (∀ b, k.stage.outcome = some (.ok b) → s.Heard i k ⟨b, false⟩) ∧
    (k.stage.outcome = some (.error .appRequestFailed) → ∃ b, s.Heard i k ⟨b, true⟩)

namespace Mail

variable {i : Nat} {k : Call}

/-- What it means for a call to be listed. -/
theorem own (h : Mail s) (hk : s.calls[i]? = some k) {x : UInt32}
    (hx : s.client.pending.get x = some i) :
    i ∉ s.answered ∧ k.stage.listed = true ∧ k.id = x := by
  obtain ⟨hnot, k₀, hk₀, hl, hid⟩ := h.pending x i hx
  obtain rfl : k₀ = k := Option.some.inj (hk₀.symm.trans hk)
  exact ⟨hnot, hl, hid⟩

/-- A call without a response has an empty channel. -/
theorem chan_none (h : Mail s) (hk : s.calls[i]? = some k) (hi : i ∉ s.answered) :
    k.chan = none := by
  cases hc : k.chan with
  | none => rfl
  | some a => exact absurd (h.chan i k a hk hc).answered hi

/-- What a step of one call has to show. -/
theorem set (h : Mail s) (hk : s.calls[i]? = some k) {k' : Call} {c' : Client}
    (hid : k'.id = k.id ∨ k.stage.early = true) (hchan : k'.chan = k.chan ∨ k'.chan = none)
    (hearly : k'.stage.early = true → k.stage.early = true)
    (hothers : ∀ x j, j ≠ i → c'.pending.get x = some j → s.client.pending.get x = some j)
    (hown : ∀ x, c'.pending.get x = some i →
      i ∉ s.answered ∧ k'.stage.listed = true ∧ k'.id = x)
    (hout : (∀ b, k'.stage.outcome = some (.ok b) → s.Heard i k' ⟨b, false⟩) ∧
      (k'.stage.outcome = some (.error .appRequestFailed) → ∃ b, s.Heard i k' ⟨b, true⟩)) :
    Mail { s with client := c', calls := s.calls.set i k' } := by
  -- a response came for the call under the ID that it has
  have hheard : ∀ a, s.Heard i k a → s.Heard i k' a := by
    intro a ha
    rcases hid with hid | hearly
    · unfold Sys.Heard at ha ⊢
      rw [hid]
      exact ha
    · exact absurd ha.answered (h.early i k hk hearly)
  refine ⟨?_, ?_, h.sendingOnce, h.once, ?_, ?_, ?_, ?_⟩
  · intro x j hj
    by_cases hji : j = i
    · subst hji
      obtain ⟨hnot, hl, hx⟩ := hown x hj
      exact ⟨hnot, k', List.getElem?_set_self (List.getElem?_eq_some_iff.mp hk).1, hl, hx⟩
    · obtain ⟨hnot, kj, hkj, hl, hx⟩ := h.pending x j (hothers x j hji hj)
      exact ⟨hnot, kj, (List.getElem?_set_ne (Ne.symm hji)).trans hkj, hl, hx⟩
  · intro e he
    obtain ⟨ke, hke, hc, hh⟩ := h.sending e he
    by_cases hei : e.1 = i
    · rw [hei] at hke hh
      obtain rfl : ke = k := Option.some.inj (hke.symm.trans hk)
      refine ⟨k', ?_, ?_, ?_⟩
      · rw [hei]
        exact List.getElem?_set_self (List.getElem?_eq_some_iff.mp hk).1
      · rcases hchan with hchan | hchan
        · exact hchan.trans hc
        · exact hchan
      · rw [hei]
        exact hheard e.2 hh
    · exact ⟨ke, (List.getElem?_set_ne (Ne.symm hei)).trans hke, hc, hh⟩
  · intro j kj hj
    rcases getElem?_set_cases hj with ⟨rfl, rfl⟩ | ⟨-, hj⟩
    · exact fun he => h.early j k hk (hearly he)
    · exact h.early j kj hj
  · intro j hj
    rw [List.length_set]
    exact h.known j hj
  · intro j kj a hj hc
    rcases getElem?_set_cases hj with ⟨rfl, rfl⟩ | ⟨-, hj⟩
    · rcases hchan with hchan | hchan
      · exact hheard a (h.chan j k a hk (hchan.symm.trans hc))
      · rw [hchan] at hc
        cases hc
    · exact h.chan j kj a hj hc
  · intro j kj hj
    rcases getElem?_set_cases hj with ⟨rfl, rfl⟩ | ⟨-, hj⟩
    · exact hout
    · exact h.outcome j kj hj

/-- A step that keeps ID and channel and leaves the list alone. -/
theorem move (h : Mail s) (hk : s.calls[i]? = some k) {k' : Call} {c' : Client}
    (hid : k'.id = k.id) (hchan : k'.chan = k.chan) (hpend : c'.pending = s.client.pending)
    (hearly : k'.stage.early = true → k.stage.early = true)
    (hlisted : k.stage.listed = true → k'.stage.listed = true)
    (hout : ∀ r, k'.stage.outcome = some r → k.stage.outcome = some r ∨
      (∀ b, r ≠ .ok b) ∧ r ≠ .error .appRequestFailed) :
    Mail { s with client := c', calls := s.calls.set i k' } := by
  refine h.set hk (Or.inl hid) (Or.inl hchan) hearly ?_ ?_ ⟨?_, ?_⟩
  · intro x j _ hx
    rw [hpend] at hx
    exact hx
  · intro x hx
    rw [hpend] at hx
    obtain ⟨hnot, hl, hx⟩ := h.own hk hx
    exact ⟨hnot, hlisted hl, hid.trans hx⟩
  · intro b hb
    rcases hout _ hb with hb | ⟨hok, -⟩
    · unfold Sys.Heard
      rw [hid]
      exact (h.outcome i k hk).1 b hb
    · exact absurd rfl (hok b)
  · intro he
    rcases hout _ he with he | ⟨-, hne⟩
    · obtain ⟨b, hb⟩ := (h.outcome i k hk).2 he
      refine ⟨b, ?_⟩
      unfold Sys.Heard
      rw [hid]
      exact hb
    · exact absurd rfl hne

theorem callStep (h : Mail s) (hk : s.calls[i]? = some k) {k' : Call} {c' : Client}
    (hs : CallStep lim i s.client k c' k') :
    Mail { s with client := c', calls := s.calls.set i k' } := by
  cases hs with
  | acquire hs hroom =>
    exact h.move hk rfl rfl rfl (by simp [hs, Stage.early]) (by simp [hs, Stage.listed])
      (by simp [Stage.outcome])
  | acquireCancel hs =>
    obtain ⟨he, hl⟩ := after_stage k (.error .ctx)
    refine h.move hk rfl rfl rfl (by simp [he]) (by simp [hs, Stage.listed]) ?_
    intro r hr
    obtain rfl := Option.some.inj ((after_outcome k (.error .ctx)).symm.trans hr)
    exact Or.inr ⟨by simp, by simp⟩
  | number hs =>
    refine h.set hk (Or.inr (by simp [hs, Stage.early])) (Or.inl rfl)
      (fun _ => by simp [hs, Stage.early]) (fun _ _ _ hx => hx) ?_
      ⟨by simp [Stage.outcome], by simp [Stage.outcome]⟩
    intro x hx
    obtain ⟨-, hl, -⟩ := h.own hk hx
    simp [hs, Stage.listed] at hl
  | register hs =>
    have hearly : k.stage.early = true := by simp [hs, Stage.early]
    refine h.set hk (Or.inl rfl) (Or.inl rfl) (by simp [Stage.early]) ?_ ?_
      ⟨by simp [Stage.outcome], by simp [Stage.outcome]⟩
    · intro x j hji hx
      rcases Table.get_set_eq_some_iff.mp hx with ⟨-, hj⟩ | ⟨-, hx⟩
      · exact absurd hj hji
      · exact hx
    · intro x hx
      rcases Table.get_set_eq_some_iff.mp hx with ⟨hid, -⟩ | ⟨-, hx⟩
      · exact ⟨h.early i k hk hearly, rfl, hid.symm⟩
      · obtain ⟨-, hl, -⟩ := h.own hk hx
        simp [hs, Stage.listed] at hl
  | sendFails hs | timeout hs | waitCancel hs =>
    refine h.move hk rfl rfl rfl (by simp [Stage.early]) (fun _ => rfl) ?_
    intro r hr
    obtain rfl := Option.some.inj hr
    exact Or.inr ⟨by simp, by simp⟩
  | sent hs =>
    exact h.move hk rfl rfl rfl (by simp [Stage.early]) (fun _ => rfl) (by simp [Stage.outcome])
  | reply hs ha =>
    rename_i a
    have hheard := h.chan i k a hk ha
    refine h.set hk (Or.inl rfl) (Or.inr rfl) (by simp [Stage.early]) (fun _ _ _ hx => hx) ?_ ⟨?_, ?_⟩
    · intro x hx
      obtain ⟨hnot, -, hx⟩ := h.own hk hx
      exact ⟨hnot, rfl, hx⟩
    · intro b hb
      obtain ⟨bytes, failed⟩ := a
      cases failed with
      | false =>
        obtain rfl : bytes = b := by simpa [Stage.outcome, AppReply.outcome] using hb
        exact hheard
      | true => simp [Stage.outcome, AppReply.outcome] at hb
    · intro hb
      obtain ⟨bytes, failed⟩ := a
      cases failed with
      | false => simp [Stage.outcome, AppReply.outcome] at hb
      | true => exact ⟨bytes, hheard⟩
  | unregister hs =>
    have hout := h.outcome i k hk
    rw [hs] at hout
    refine h.set hk (Or.inl rfl) (Or.inl rfl) (by simp [Stage.early]) ?_ ?_ hout
    · intro x j _ hx
      exact Table.get_of_erase hx
    · intro x hx
      obtain ⟨-, -, hid⟩ := h.own hk (Table.get_of_erase hx)
      rw [← hid, Table.get_erase_self] at hx
      cases hx
  | release hs =>
    rename_i r
    obtain ⟨he, hl⟩ := after_stage k r
    refine h.move hk rfl rfl rfl (by simp [he]) (by simp [hs, Stage.listed]) ?_
    intro r' hr
    obtain rfl := Option.some.inj ((after_outcome k r).symm.trans hr)
    exact Or.inl (by rw [hs]; rfl)
  | cool hs _ | unpick hs =>
    refine h.move hk rfl rfl rfl (by simp [Stage.early]) (by simp [hs, Stage.listed]) ?_
    intro r hr
    exact Or.inl (by rw [hs]; exact hr)

/-- The send of `OnAppResponse`. -/
theorem deliver (h : Mail s) {l r : List (Nat × AppReply)} {a : AppReply}
    (hs : s.sending = l ++ (i, a) :: r) (hk : s.calls[i]? = some k) :
    Mail { s with calls := s.calls.set i { k with chan := some a }, sending := l ++ r } := by
  have hmem : ∀ e ∈ l ++ r, e ∈ s.sending := by
    intro e he
    rw [hs]
    rcases List.mem_append.mp he with he | he
    · exact List.mem_append_left _ he
    · exact List.mem_append_right _ (List.mem_cons_of_mem _ he)
  -- the response is the only one for this call
  have hother : ∀ e ∈ l ++ r, e.1 ≠ i := by
    intro e he hei
    have hnodup := h.sendingOnce
    rw [hs, List.map_append, List.map_cons, List.nodup_middle, List.nodup_cons] at hnodup
    refine hnodup.1 ?_
    rw [← List.map_append]
    exact List.mem_map.mpr ⟨e, he, hei⟩
  have hself : (i, a) ∈ s.sending := by
    rw [hs]
    exact List.mem_append_right _ List.mem_cons_self
  have hheard : s.Heard i k a := by
    obtain ⟨k₀, hk₀, -, hh⟩ := h.sending _ hself
    obtain rfl : k₀ = k := Option.some.inj (hk₀.symm.trans hk)
    exact hh
  refine ⟨?_, ?_, ?_, h.once, ?_, ?_, ?_, ?_⟩
  · intro x j hj
    obtain ⟨hnot, kj, hkj, hl, hx⟩ := h.pending x j hj
    have hji : j ≠ i := by
      rintro rfl
      exact hnot hheard.answered
    exact ⟨hnot, kj, (List.getElem?_set_ne (Ne.symm hji)).trans hkj, hl, hx⟩
  · intro e he
    obtain ⟨ke, hke, hc, hh⟩ := h.sending e (hmem e he)
    exact ⟨ke, (List.getElem?_set_ne (hother e he).symm).trans hke, hc, hh⟩
  · refine h.sendingOnce.sublist (List.Sublist.map Prod.fst ?_)
    rw [hs]
    exact (List.Sublist.refl l).append (List.sublist_cons_self _ _)
  · intro j kj hj
    rcases getElem?_set_cases hj with ⟨rfl, rfl⟩ | ⟨-, hj⟩
    · exact h.early j k hk
    · exact h.early j kj hj
  · intro j hj
    rw [List.length_set]
    exact h.known j hj
  · intro j kj b hj hc
    rcases getElem?_set_cases hj with ⟨rfl, rfl⟩ | ⟨-, hj⟩
    · obtain rfl := Option.some.inj hc
      exact hheard
    · exact h.chan j kj b hj hc
  · intro j kj hj
    rcases getElem?_set_cases hj with ⟨rfl, rfl⟩ | ⟨-, hj⟩
    · exact h.outcome j k hk
    · exact h.outcome j kj hj

/-- A new call. -/
theorem join (h : Mail s) {c' : Client} (hpend : c'.pending = s.client.pending)
    (hchan : k.chan = none) (hout : ∀ b, k.stage.outcome ≠ some (.ok b))
    (herr : k.stage.outcome ≠ some (.error .appRequestFailed)) :
    Mail { s with client := c', calls := s.calls ++ [k] } := by
  have hnew : s.calls.length ∉ s.answered := fun hi => Nat.lt_irrefl _ (h.known _ hi)
  refine ⟨?_, ?_, h.sendingOnce, h.once, ?_, ?_, ?_, ?_⟩
  · intro x j hj
    rw [hpend] at hj
    obtain ⟨hnot, kj, hkj, hl, hx⟩ := h.pending x j hj
    exact ⟨hnot, kj, getElem?_concat_of_some hkj, hl, hx⟩
  · intro e he
    obtain ⟨ke, hke, hc, hh⟩ := h.sending e he
    exact ⟨ke, getElem?_concat_of_some hke, hc, hh⟩
  · intro j kj hj
    rcases getElem?_concat_cases hj with ⟨rfl, rfl⟩ | hj
    · exact fun _ => hnew
    · exact h.early j kj hj
  · intro j hj
    have hlt := h.known j hj
    rw [List.length_append]
    exact Nat.lt_add_right _ hlt
  · intro j kj b hj hc
    rcases getElem?_concat_cases hj with ⟨rfl, rfl⟩ | hj
    · rw [hchan] at hc
      cases hc
    · exact h.chan j kj b hj hc
  · intro j kj hj
    rcases getElem?_concat_cases hj with ⟨rfl, rfl⟩ | hj
    · exact ⟨fun b hb => absurd hb (hout b), fun he => absurd he herr⟩
    · exact h.outcome j kj hj

theorem answered_onAppResponse (x : UInt32) (a : AppReply) :
    (s.onAppResponse x a).answered = s.answered ++ (s.client.pending.get x).toList := by
  unfold Sys.answered Sys.onAppResponse
  rw [List.filterMap_append]
  cases s.client.pending.get x <;> rfl

/-- The locked part of `OnAppResponse`. -/
theorem response (h : Mail s) (x : UInt32) (a : AppReply) : Mail (s.onAppResponse x a) := by
  have hheard : ∀ i k b, s.Heard i k b → (s.onAppResponse x a).Heard i k b :=
    fun i k b hb => List.mem_append_left _ hb
  have hans : ∀ j, j ∈ (s.onAppResponse x a).answered ↔
      j ∈ s.answered ∨ s.client.pending.get x = some j := by
    intro j
    rw [answered_onAppResponse, List.mem_append, Option.mem_toList]
  refine ⟨?_, ?_, ?_, ?_, ?_, ?_, ?_, ?_⟩
  · intro y j hj
    have hy : s.client.pending.get y = some j := Table.get_of_erase hj
    obtain ⟨hnot, kj, hkj, hl, hid⟩ := h.pending y j hy
    refine ⟨fun hj' => ?_, kj, hkj, hl, hid⟩
    rcases (hans j).mp hj' with hj' | hx
    · exact hnot hj'
    · -- the same call under two IDs
      obtain ⟨-, -, hid'⟩ := h.own hkj hx
      have hj : (s.client.pending.erase x).get y = some j := hj
      rw [← hid, hid', Table.get_erase_self] at hj
      cases hj
  · intro e he
    rcases List.mem_append.mp he with he | he
    · obtain ⟨ke, hke, hc, hh⟩ := h.sending e he
      exact ⟨ke, hke, hc, hheard _ _ _ hh⟩
    · obtain ⟨i, hx, rfl⟩ := Option.map_eq_some_iff.mp (Option.mem_toList.mp he)
      obtain ⟨hnot, k, hk, -, hid⟩ := h.pending x i hx
      refine ⟨k, hk, h.chan_none hk hnot, ?_⟩
      unfold Sys.Heard Sys.onAppResponse
      rw [hid, ← hx]
      exact List.mem_append_right _ (List.mem_singleton_self _)
  · have hsub : ∀ j ∈ s.sending.map Prod.fst, j ∈ s.answered := by
      intro j hj
      obtain ⟨e, he, rfl⟩ := List.mem_map.mp hj
      obtain ⟨ke, -, -, hh⟩ := h.sending e he
      exact hh.answered
    unfold Sys.onAppResponse
    cases hx : s.client.pending.get x with
    | none =>
      rw [Option.map_none, Option.toList_none, List.append_nil]
      exact h.sendingOnce
    | some i =>
      obtain ⟨hnot, -⟩ := h.pending x i hx
      rw [Option.map_some, Option.toList_some, List.map_append, List.nodup_append]
      refine ⟨h.sendingOnce, List.nodup_singleton _, fun j hj j' hj' => ?_⟩
      obtain rfl : j' = i := by simpa using hj'
      rintro rfl
      exact hnot (hsub _ hj)
  · rw [answered_onAppResponse]
    cases hx : s.client.pending.get x with
    | none =>
      rw [Option.toList_none, List.append_nil]
      exact h.once
    | some i =>
      obtain ⟨hnot, -⟩ := h.pending x i hx
      rw [Option.toList_some, List.nodup_append]
      refine ⟨h.once, List.nodup_singleton _, fun j hj j' hj' => ?_⟩
      obtain rfl : j' = i := by simpa using hj'
      rintro rfl
      exact hnot hj
  · intro j kj hj he hj'
    rcases (hans j).mp hj' with hj' | hx
    · exact h.early j kj hj he hj'
    · obtain ⟨-, hl, -⟩ := h.own hj hx
      cases hst : kj.stage <;> rw [hst] at he hl <;> cases he <;> cases hl
  · intro j hj
    rcases (hans j).mp hj with hj | hx
    · exact h.known j hj
    · obtain ⟨-, kj, hkj, -⟩ := h.pending x j hx
      exact (List.getElem?_eq_some_iff.mp hkj).1
  · exact fun j kj b hj hc => hheard _ _ _ (h.chan j kj b hj hc)
  · intro j kj hj
    obtain ⟨hok, herr⟩ := h.outcome j kj hj
    refine ⟨fun b hb => hheard _ _ _ (hok b hb), fun he => ?_⟩
    obtain ⟨b, hb⟩ := herr he
    exact ⟨b, hheard _ _ _ hb⟩

end Mail

theorem Reaches.mail (h : Reaches lim s) : Mail s := by
  refine h.rule (I := Mail) ?_ ?_ ?_
  · exact ⟨fun _ _ h => by simp [Sys.start, Client.new] at h, fun _ h => by simp [Sys.start] at h,
      List.nodup_nil, List.nodup_nil, fun _ _ h => by simp [Sys.start] at h,
      fun _ h => by simp [Sys.answered, Sys.start] at h, fun _ _ _ h => by simp [Sys.start] at h,
      fun _ _ h => by simp [Sys.start] at h⟩
  · intro s s' ih hstep
    cases hstep with
    | call hk hs => exact ih.callStep hk hs
    | deliver hs hk hroom => exact ih.deliver hs hk
  · intro s s' ih hstep
    cases hstep with
    | any now off peers =>
      unfold Sys.sendAny Client.pickPeer
      cases s.client.scan lim.perPeer now (peers.rotate off) none with
      | none => exact ih.join (k := Call.refused) rfl rfl (fun _ h => by cases h) (fun h => by cases h)
      | some id => exact ih.join (k := Call.new id true) rfl rfl (fun _ h => by cases h) (fun h => by cases h)
    | direct node => exact ih.join (k := Call.new node false) rfl rfl (fun _ h => by cases h) (fun h => by cases h)
    | response requestID a => exact ih.response requestID a

/-- `OnAppResponse` never blocks on a channel, whatever responses the peers send: the
channel it took from the list is empty when it sends, and no call is given two. -/
theorem response_never_blocks (h : Reaches lim s) :
    (∀ e ∈ s.sending, ∃ k, s.calls[e.1]? = some k ∧ k.chan = none) ∧
      (s.sending.map Prod.fst).Nodup ∧ s.answered.Nodup := by
  refine ⟨fun e he => ?_, h.mail.sendingOnce, h.mail.once⟩
  obtain ⟨k, hk, hc, -⟩ := h.mail.sending e he
  exact ⟨k, hk, hc⟩

/-- A reply on its way to a call. -/
theorem response_never_blocks_sample :
    Sample.answering.sending = [(0, Sample.reply)] ∧
      (∀ e ∈ Sample.answering.sending,
        ∃ k, Sample.answering.calls[e.1]? = some k ∧ k.chan = none) ∧
      (Sample.answering.sending.map Prod.fst).Nodup ∧ Sample.answering.answered.Nodup :=
  ⟨rfl, response_never_blocks Sample.answering_reached⟩

/-! ## Request IDs -/

/-- A call that waits for its reply, or has got it. -/
def Stage.sent : Stage → Bool
  | .wait => true
  | t =>
    match t.outcome with
    | some (.ok _) => true
    | _ => false

/-- Request IDs are even, and a call waits only for what it has sent. -/
structure Wired (s : Sys) : Prop where
  calls : ∀ k ∈ s.calls, k.id.toNat % 2 = 0
  wire : ∀ e ∈ s.client.wire, e.2.toNat % 2 = 0
  sent : ∀ k ∈ s.calls, k.stage.sent = true → (k.node, k.id) ∈ s.client.wire

theorem double_even (x : UInt32) : (x * 2).toNat % 2 = 0 := by
  rw [UInt32.toNat_mul, show (2 : UInt32).toNat = 2 from rfl]
  omega

theorem after_sent (k : Call) (r : Outcome) (h : (k.after r).sent = true) : ∃ b, r = .ok b := by
  have hout := after_outcome k r
  unfold Call.after at h hout
  cases r with
  | ok b => exact ⟨b, rfl⟩
  | error e =>
    split at h
    · split at h <;> cases h
    · cases h

theorem Wired.callStep (h : Wired s) {i : Nat} {k k' : Call} {c' : Client}
    (hk : s.calls[i]? = some k) (hs : CallStep lim i s.client k c' k') :
    Wired { s with client := c', calls := s.calls.set i k' } := by
  have hmem : k ∈ s.calls := List.mem_of_getElem? hk
  have heven := h.calls k hmem
  have hsent := h.sent k hmem
  -- a step that sends nothing and leaves the ID alone
  have keep : ∀ {c' : Client} {k' : Call}, c'.wire = s.client.wire → k'.id = k.id →
      k'.node = k.node → (k'.stage.sent = true → k.stage.sent = true) →
      Wired { s with client := c', calls := s.calls.set i k' } := by
    intro c' k' hw hid hnode himp
    refine ⟨forall_mem_set h.calls (by rw [hid]; exact heven), by rw [hw]; exact h.wire,
      forall_mem_set ?_ ?_⟩
    · rw [hw]
      exact h.sent
    · intro hst
      rw [hw, hid, hnode]
      exact hsent (himp hst)
  cases hs with
  | number hs =>
    exact ⟨forall_mem_set h.calls (double_even _), h.wire, forall_mem_set h.sent fun hst => by cases hst⟩
  | sent hs =>
    refine ⟨forall_mem_set h.calls heven, ?_, forall_mem_set ?_ ?_⟩
    · intro e he
      rcases List.mem_append.mp he with he | he
      · exact h.wire e he
      · obtain rfl := List.mem_singleton.mp he
        exact heven
    · exact fun k hk hst => List.mem_append_left _ (h.sent k hk hst)
    · exact fun _ => List.mem_append_right _ (List.mem_singleton_self _)
  | acquire hs hroom => exact keep rfl rfl rfl fun hst => by cases hst
  | acquireCancel hs =>
    refine keep rfl rfl rfl fun hst => ?_
    obtain ⟨b, hb⟩ := after_sent k _ hst
    cases hb
  | register hs | sendFails hs | timeout hs | waitCancel hs =>
    exact keep rfl rfl rfl fun hst => by cases hst
  | reply hs ha => exact keep rfl rfl rfl fun _ => by rw [hs]; rfl
  | unregister hs | unpick hs => exact keep rfl rfl rfl fun hst => by rw [hs]; exact hst
  | release hs =>
    refine keep rfl rfl rfl fun hst => ?_
    obtain ⟨b, rfl⟩ := after_sent k _ hst
    rw [hs]
    rfl
  | cool hs now => exact keep rfl rfl rfl fun hst => by rw [hs]; exact hst

theorem Wired.join (h : Wired s) {c' : Client} {k : Call} (hw : c'.wire = s.client.wire)
    (hid : k.id = 0) (hst : k.stage.sent = false) :
    Wired { s with client := c', calls := s.calls ++ [k] } := by
  refine ⟨?_, by rw [hw]; exact h.wire, ?_⟩
  · intro k' hk'
    rcases List.mem_append.mp hk' with hk' | hk'
    · exact h.calls k' hk'
    · obtain rfl := List.mem_singleton.mp hk'
      rw [hid]
      rfl
  · intro k' hk' hs
    rw [hw]
    rcases List.mem_append.mp hk' with hk' | hk'
    · exact h.sent k' hk' hs
    · obtain rfl := List.mem_singleton.mp hk'
      rw [hst] at hs
      cases hs

theorem Reaches.wired (h : Reaches lim s) : Wired s := by
  refine h.rule (I := Wired) ⟨fun _ h => (by cases h), fun _ h => (by cases h), fun _ h => (by cases h)⟩ ?_ ?_
  · intro s s' ih hstep
    cases hstep with
    | call hk hs => exact ih.callStep hk hs
    | deliver hs hk hroom =>
      rename_i k
      have hmem : k ∈ s.calls := List.mem_of_getElem? hk
      exact ⟨forall_mem_set ih.calls (ih.calls k hmem), ih.wire,
        forall_mem_set ih.sent (ih.sent k hmem)⟩
  · intro s s' ih hstep
    cases hstep with
    | any now off peers =>
      unfold Sys.sendAny Client.pickPeer
      cases s.client.scan lim.perPeer now (peers.rotate off) none with
      | none => exact ih.join (k := Call.refused) rfl rfl rfl
      | some id => exact ih.join (k := Call.new id true) rfl rfl rfl
    | direct node => exact ih.join (k := Call.new node false) rfl rfl rfl
    | response requestID a => exact ⟨ih.calls, ih.wire, ih.sent⟩

/-- What a call returns is what a response under its own request's ID carried, which the
table handed to its channel. The request was sent to the call's peer, and requests have even
IDs. Who sent the response is not checked, and IDs wrap around. -/
theorem result_is_own_reply (h : Reaches lim s) {i : Nat} {k : Call} {b : Bytes}
    (hk : s.calls[i]? = some k) (hr : k.stage = .returned (.ok b)) :
    (k.id, ⟨b, false⟩, some i) ∈ s.heard ∧ (k.node, k.id) ∈ s.client.wire ∧
      ∀ e ∈ s.client.wire, e.2.toNat % 2 = 0 := by
  refine ⟨(h.mail.outcome i k hk).1 b (by rw [hr]; rfl), ?_, h.wired.wire⟩
  exact h.wired.sent k (List.mem_of_getElem? hk) (by rw [hr]; rfl)

theorem result_is_own_reply_sample :
    (2, Sample.reply, some 0) ∈ Sample.done.heard ∧
      (Sample.node, 2) ∈ Sample.done.client.wire ∧
      ∀ e ∈ Sample.done.client.wire, e.2.toNat % 2 = 0 :=
  result_is_own_reply (i := 0) Sample.done_reached rfl rfl

/-! ## Every call returns -/

/-- How far a call is from returning. -/
def Stage.rank : Stage → Nat
  | .acquire => 9
  | .number => 8
  | .register => 7
  | .send => 6
  | .wait => 5
  | .unregister _ => 4
  | .release _ => 3
  | .cool _ => 2
  | .unpick _ => 1
  | .returned _ => 0

/-- What is left to do without new calls and responses. -/
def Sys.rank (s : Sys) : Nat := (s.calls.map (fun k => k.stage.rank)).sum + s.sending.length

theorem after_rank (k : Call) (r : Outcome) : (k.after r).rank ≤ 2 := by
  unfold Call.after
  split
  · split <;> simp [Stage.rank]
  · simp [Stage.rank]

theorem callStep_rank {i : Nat} {c c' : Client} {k k' : Call}
    (h : CallStep lim i c k c' k') : k'.stage.rank < k.stage.rank := by
  cases h with
  | acquireCancel hs =>
    have hle := after_rank k (.error .ctx)
    rw [hs]
    exact Nat.lt_of_le_of_lt hle (by decide)
  | release hs =>
    rename_i r
    have hle := after_rank k r
    rw [hs]
    exact Nat.lt_succ_of_le hle
  | acquire hs hroom => simp [hs, Stage.rank]
  | number hs | register hs | sendFails hs | sent hs | timeout hs | waitCancel hs
  | unregister hs | unpick hs => simp [hs, Stage.rank]
  | reply hs _ | cool hs _ => simp [hs, Stage.rank]

theorem inner_rank (h : Inner lim s s') : s'.rank < s.rank := by
  cases h with
  | call hk hs =>
    rename_i i k k' c'
    have hlt := callStep_rank hs
    have hsum := sum_set_add (fun k : Call => k.stage.rank) hk k'
    unfold Sys.rank
    dsimp only at hsum ⊢
    omega
  | deliver hs hk hroom =>
    rename_i l r i a k
    have hsum := sum_set_add (fun k : Call => k.stage.rank) hk { k with chan := some a }
    unfold Sys.rank
    rw [hs]
    simp only [List.length_append, List.length_cons] at hsum ⊢
    omega

/-- A call that has not returned can go on, but for a full semaphore. -/
theorem exists_callStep {c : Client} {k : Call} (i : Nat)
    (hk : ∀ r, k.stage ≠ .returned r) (hroom : k.stage = .acquire → c.sem < lim.inflight) :
    ∃ c' k', CallStep lim i c k c' k' := by
  cases hs : k.stage with
  | acquire => exact ⟨_, _, .acquire hs (hroom hs)⟩
  | number => exact ⟨_, _, .number hs⟩
  | register => exact ⟨_, _, .register hs⟩
  | send => exact ⟨_, _, .sent hs⟩
  | wait => exact ⟨_, _, .timeout hs⟩
  | unregister r => exact ⟨_, _, .unregister hs⟩
  | release r => exact ⟨_, _, .release hs⟩
  | cool r => exact ⟨_, _, .cool hs 0⟩
  | unpick r => exact ⟨_, _, .unpick hs⟩
  | returned r => exact absurd hs (hk r)

/-- With a full semaphore somebody holds a token, and can go on. -/
theorem Held.exists_inner (h : Held lim s.client s.calls) {k : Call} (hk : k ∈ s.calls)
    (hnot : ∀ r, k.stage ≠ .returned r) : ∃ s', Inner lim s s' := by
  have go : ∀ k ∈ s.calls, (∀ r, k.stage ≠ .returned r) →
      (k.stage = .acquire → s.client.sem < lim.inflight) → ∃ s', Inner lim s s' := by
    intro k hk hnot hroom
    obtain ⟨i, hi⟩ := List.mem_iff_getElem?.mp hk
    have hgo : ∃ c' k', CallStep lim i s.client k c' k' := exists_callStep i hnot hroom
    obtain ⟨c', k', hstep⟩ := hgo
    exact ⟨_, .call hi hstep⟩
  by_cases hroom : s.client.sem < lim.inflight
  · exact go k hk hnot fun _ => hroom
  · have hpos : 0 < s.calls.countP Call.token := by
      rw [← h.sem]
      have hlim := lim.inflight_pos
      omega
    obtain ⟨k', hk', ht⟩ := List.countP_pos_iff.mp hpos
    refine go k' hk' (fun r hr => ?_) (fun ha => ?_)
    · rw [Call.token, hr] at ht
      cases ht
    · rw [Call.token, ha] at ht
      cases ht

/-- Without new calls and responses every run ends, and it ends only when each call has
returned and nothing of it is left: no token, no counted peer, no listed channel, no
response on its way. -/
theorem calls_return_and_drain :
    WellFounded (fun s' s => Inner lim s s') ∧
      ∀ s, Reaches lim s → (∀ s', ¬ Inner lim s s') →
        (∀ k ∈ s.calls, ∃ r, k.stage = .returned r) ∧ s.sending = [] ∧ s.client.sem = 0 ∧
          (∀ id, s.client.outstanding.get id = none) ∧ ∀ x, s.client.pending.get x = none := by
  refine ⟨Subrelation.wf (fun h => inner_rank h) (measure Sys.rank).wf, fun s h hstuck => ?_⟩
  have hret : ∀ k ∈ s.calls, ∃ r, k.stage = .returned r := by
    intro k hk
    by_contra hnot
    rw [not_exists] at hnot
    obtain ⟨s', hs'⟩ := h.held.exists_inner hk hnot
    exact hstuck s' hs'
  have hsending : s.sending = [] := by
    cases hs : s.sending with
    | nil => rfl
    | cons e rest =>
      obtain ⟨i, a⟩ := e
      obtain ⟨k, hk, hc, -⟩ := h.mail.sending (i, a) (by rw [hs]; exact List.mem_cons_self)
      exact absurd (.deliver (l := []) hs hk hc) (hstuck _)
  refine ⟨hret, hsending, ?_, fun id => ?_, fun x => ?_⟩
  · rw [h.held.sem, List.countP_eq_zero]
    intro k hk
    obtain ⟨r, hr⟩ := hret k hk
    simp [Call.token, hr]
  · refine h.held.tallies.get_eq_none fun k hk => ?_
    obtain ⟨r, hr⟩ := hret k hk
    simp [Call.peer, hr]
  · cases hx : s.client.pending.get x with
    | none => rfl
    | some i =>
      obtain ⟨-, k, hk, hl, -⟩ := h.mail.pending x i hx
      obtain ⟨r, hr⟩ := hret k (List.mem_of_getElem? hk)
      rw [hr] at hl
      cases hl

theorem calls_return_and_drain_sample :
    (∀ k ∈ Sample.done.calls, ∃ r, k.stage = .returned r) ∧ Sample.done.client.sem = 0 := by
  have hstuck : ∀ s', ¬ Inner Sample.limits Sample.done s' := by
    intro s' hs'
    have hlt := inner_rank hs'
    have hzero : Sample.done.rank = 0 := rfl
    omega
  obtain ⟨hret, -, hsem, -⟩ := (@calls_return_and_drain Sample.limits).2 Sample.done
    Sample.done_reached hstuck
  exact ⟨hret, hsem⟩

end

end Flatstate.Sync.NetClient
