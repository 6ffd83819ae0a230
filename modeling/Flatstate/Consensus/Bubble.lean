import Flatstate.Consensus.Feed

set_option autoImplicit false

/-!
# Consensus: the walk of a vote

`bubble` follows parent IDs through the known containers until it is at one that can be
voted for.  The source has no bound on it.  The engine knows finitely many containers, each
under its own ID; where parent links have no cycle, no walk meets a container twice, so the
bound of the model is never reached (`bubbles`).
-/

namespace Flatstate.Consensus

open Foundation Schema

variable {T P V N ρ : Type} {S : Setup T P V N ρ} {U : Container → Prop} {now : Nat}

/-! ## Known containers -/

/-- Every container the engine has is kept under its ID and was delivered. -/
def Core.Known (U : Container → Prop) (c : Core T) : Prop :=
  ∀ id r, c.recs.get id = some r → r.c.id = id ∧ U r.c

theorem Core.Known.of_subset {c c' : Core T} (h : c.Known U)
    (hsub : ∀ id r, c'.recs.get id = some r → c.recs.get id = some r) : c'.Known U :=
  fun id r hr => h id r (hsub id r hr)

theorem callbacks_subset (ds : List Decision) (c : Core T) (id : ID) (r : Rec)
    (h : (c.callbacks ds).2.2.recs.get id = some r) : c.recs.get id = some r := by
  induction ds generalizing c with
  | nil => exact h
  | cons d ds ih =>
    cases d with
    | accept con =>
      have haccept : ∀ r, (c.onAccept con).2.recs.get id = some r → c.recs.get id = some r :=
        fun r hr => (get_onAccept.mp hr).2.1
      rw [Core.callbacks] at h
      cases hcall : c.onAccept con with
      | mk res c1 =>
        rw [hcall] at h haccept
        cases res with
        | error x => exact haccept r h
        | ok u => exact haccept r (ih c1 h)
    | reject con => exact (get_erase_iff.mp (ih (c.onReject con) h)).2

/-- The deciding part only keeps containers that were delivered. -/
theorem Move.known {c c' : Core T} (h : Move S U c c') (hk : c.Known U) : c'.Known U := by
  cases h with
  | insert con hU hnew hlast hnum =>
    intro id r hr
    rcases Table.get_set_eq_some_iff.mp hr with ⟨rfl, rfl⟩ | ⟨-, hr⟩
    · exact ⟨rfl, hU⟩
    · exact hk id r hr
  | wait pending => exact hk
  | @issue id r p hr hi hp =>
    rcases issue_recs (S := S) c r p with ⟨-, line, hset⟩ | ⟨-, hsame | herase⟩
    · intro id' r' hr'
      rw [hset, Table.get_set] at hr'
      split at hr'
      · rename_i hid
        obtain rfl := Option.some.inj hr'
        exact ⟨hid.symm, (hk id r hr).2⟩
      · exact hk id' r' hr'
    · exact hk.of_subset (fun id' r' hr' => hsame ▸ hr')
    · refine hk.of_subset (fun id' r' hr' => ?_)
      rw [herase] at hr'
      exact (get_erase_iff.mp hr').2
  | poll votes =>
    refine hk.of_subset (fun id r hr => ?_)
    have hsub := callbacks_subset (S.topo.recordPoll c.cons votes).1 c id r
    rw [Core.recordPoll] at hr
    split at hr
    · rename_i c1 hcall
      rw [hcall] at hsub
      exact hsub hr
    · rename_i c1 hcall
      rw [hcall] at hsub
      exact hsub hr
  | head => exact hk.of_subset (fun id r hr => by rwa [emitHead_recs] at hr)

theorem Moves.known {c c' : Core T} (h : Moves S U c c') (hk : c.Known U) : c'.Known U := by
  induction h with
  | refl => exact hk
  | tail _ hlast ih => exact hlast.known ih

/-! ## The walk -/

/-- A container is named as the parent of another. -/
def Parent (U : Container → Prop) (id parentID : ID) : Prop :=
  ∃ c, U c ∧ c.id = id ∧ c.parentID = parentID

/-- Parent links have no cycle. -/
def Acyclic (U : Container → Prop) : Prop := ∀ id, ¬ Relation.TransGen (Parent U) id id

/-- What a vote can be for. -/
def Core.Votable (S : Setup T P V N ρ) (c : Core T) (id : ID) : Prop :=
  id = c.lastAcceptedID ∨ S.topo.processing c.cons id = true

/-- `anc` is `id` or an ancestor of it, through known containers. -/
inductive Above (recs : Table ID Rec) : ID → ID → Prop where
  | self (id : ID) : Above recs id id
  | up {id anc : ID} {r : Rec} (hr : recs.get id = some r) (h : Above recs r.c.parentID anc) :
      Above recs id anc

/-- The loop of `bubble`, without a bound. -/
inductive Bubbles (S : Setup T P V N ρ) (c : Core T) : ID → Except ID ID → Prop where
  | vote {id : ID} (h : c.Votable S id) : Bubbles S c id (.ok id)
  | unknown {id : ID} (h : ¬ c.Votable S id) (hr : c.recs.get id = none) :
      Bubbles S c id (.error id)
  | stale {id : ID} {r : Rec} (h : ¬ c.Votable S id) (hr : c.recs.get id = some r)
      (hn : r.c.eth.number ≤ c.lastAcceptedHeight) : Bubbles S c id (.error ID.empty)
  | up {id : ID} {r : Rec} {res : Except ID ID} (h : ¬ c.Votable S id)
      (hr : c.recs.get id = some r) (hn : ¬ r.c.eth.number ≤ c.lastAcceptedHeight)
      (hup : Bubbles S c r.c.parentID res) : Bubbles S c id res

/-- What it votes for can be voted for, and is where it started or above. -/
theorem Bubbles.ok {c : Core T} {id vote : ID} {res : Except ID ID} (h : Bubbles S c id res)
    (hres : res = .ok vote) : c.Votable S vote ∧ Above c.recs id vote := by
  induction h with
  | vote hv =>
    obtain rfl := Except.ok.inj hres
    exact ⟨hv, .self _⟩
  | unknown => cases hres
  | stale => cases hres
  | up hv hr hn hup ih => exact ⟨(ih hres).1, .up hr (ih hres).2⟩

/-- With the containers in `seen` behind it, the walk has enough fuel if it has as much as
there are containers ahead. -/
theorem bubbles_of_seen (hac : Acyclic U) {e : Engine T P N} (hk : e.core.Known U) (n : Nat)
    (id : ID) (seen : List ID) (hnodup : seen.Nodup) (hbound : ∀ x ∈ seen, e.core.recs.get x ≠ none)
    (hbelow : ∀ x ∈ seen, Relation.TransGen (Parent U) x id)
    (hn : e.core.recs.size ≤ n + seen.length) : Bubbles S e.core id (e.bubble S n id) := by
  induction n generalizing id seen with
  | zero =>
    rw [Engine.bubble]
    split
    · rename_i hv
      exact .vote hv
    rename_i hv
    cases hr : e.core.recs.get id with
    | none => exact .unknown hv hr
    | some r =>
      dsimp only
      split
      · rename_i hstale
        exact .stale hv hr hstale
      · -- all containers are behind the walk, and it is at one more
        have hnew : id ∉ seen := fun hm => hac id (hbelow id hm)
        have hle := Table.length_le_size (t := e.core.recs)
          (List.nodup_cons.mpr ⟨hnew, hnodup⟩) (fun x hx => by
            rcases List.mem_cons.mp hx with rfl | hx
            · rw [hr]; simp
            · exact hbound x hx)
        rw [List.length_cons] at hle
        omega
  | succ n ih =>
    rw [Engine.bubble]
    split
    · rename_i hv
      exact .vote hv
    rename_i hv
    cases hr : e.core.recs.get id with
    | none => exact .unknown hv hr
    | some r =>
      dsimp only
      split
      · rename_i hstale
        exact .stale hv hr hstale
      · rename_i hstale
        have hstep : Parent U id r.c.parentID := ⟨r.c, (hk id r hr).2, (hk id r hr).1, rfl⟩
        have hnew : id ∉ seen := fun hm => hac id (hbelow id hm)
        refine .up hv hr hstale (ih _ (id :: seen) (List.nodup_cons.mpr ⟨hnew, hnodup⟩) ?_ ?_ ?_)
        · refine List.forall_mem_cons.mpr ⟨?_, hbound⟩
          rw [hr]
          simp
        · exact List.forall_mem_cons.mpr ⟨.single hstep, fun x hx => (hbelow x hx).tail hstep⟩
        · rw [List.length_cons]
          omega

/-- `bubble` ends, with the result of the model. -/
theorem bubbles (hac : Acyclic U) {e : Engine T P N} (hk : e.core.Known U) (id : ID) :
    Bubbles S e.core id (e.bubble S e.core.recs.size id) :=
  bubbles_of_seen hac hk _ id [] List.nodup_nil (by simp) (by simp) (Nat.le_refl _)

end Flatstate.Consensus
