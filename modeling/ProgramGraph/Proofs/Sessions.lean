import ProgramGraph.Proofs.Forks

/-! Sessions over numbered scopes: a step in one scope leaves the others as they are, and a block in
a numbered fork does what a block in a fork does. -/
namespace ProgramGraph

open Lowering

namespace Session
variable {s s' s'' : Session} {number m : Nat}

/-- Every scope has a set of conditions, and there is one for scopes that there are not. -/
structure WellFormed (s : Session) : Prop where
  nonempty : 0 < s.conditionSets.size
  hasSet : ∀ t ∈ s.scopes, t.conditionSet < s.conditionSets.size

/-- What two sessions say of a scope, but for its conditions, of which it may share the set. -/
def SameAt (s s' : Session) (m : Nat) : Prop :=
  (s'.scopes[m]?).map SharedScope.scope = (s.scopes[m]?).map SharedScope.scope

/-- Of the scopes that there were only one was worked on. -/
structure Frames (s : Session) (number : Nat) (s' : Session) : Prop where
  size : s.scopes.size ≤ s'.scopes.size
  others : ∀ m < s.scopes.size, m ≠ number → s.SameAt s' m
  wellFormed : s.WellFormed → s'.WellFormed

namespace Frames

theorem of_scopes (hscopes : s'.scopes = s.scopes) (hsets : s'.conditionSets = s.conditionSets) :
    s.Frames number s' := by
  refine ⟨Nat.le_of_eq (congrArg Array.size hscopes.symm), fun m _ _ => ?_, fun h => ?_⟩
  · rw [SameAt, hscopes]
  · exact ⟨hsets ▸ h.nonempty, hscopes ▸ hsets ▸ h.hasSet⟩

theorem trans (h : s.Frames number s') (h' : s'.Frames number s'') : s.Frames number s'' where
  size := Nat.le_trans h.size h'.size
  others m hm hne := (h'.others m (by have := h.size; omega) hne).trans (h.others m hm hne)
  wellFormed hs := h'.wellFormed (h.wellFormed hs)

end Frames

theorem WellFormed.conditionSetOf_lt (h : s.WellFormed) (number : Nat) :
    s.conditionSetOf number < s.conditionSets.size := by
  unfold conditionSetOf
  cases ht : s.scopes[number]? with
  | none => exact h.nonempty
  | some t => exact h.hasSet t (Array.mem_of_getElem? ht)

theorem frames_setScope (s : Session) (number : Nat) (scope : Scope) :
    s.Frames number (s.setScope number scope) := by
  have hscopes : (s.setScope number scope).scopes.size = s.scopes.size := Array.size_setIfInBounds
  have hsets : (s.setScope number scope).conditionSets.size = s.conditionSets.size :=
    Array.size_setIfInBounds
  refine ⟨Nat.le_of_eq hscopes.symm, fun m _ hm => ?_,
    fun h => ⟨hsets ▸ h.nonempty, fun t ht => ?_⟩⟩
  · rw [SameAt, setScope, Array.getElem?_setIfInBounds_ne hm.symm]
  · rw [hsets]
    rcases Array.mem_or_eq_of_mem_setIfInBounds ht with ht | rfl
    · exact h.hasSet t ht
    · exact h.conditionSetOf_lt number

theorem frames_push {s s' : Session} {t : SharedScope} (hscopes : s'.scopes = s.scopes.push t)
    (hsets : s.conditionSets.size ≤ s'.conditionSets.size)
    (ht : s.WellFormed → t.conditionSet < s'.conditionSets.size) : s.Frames number s' := by
  refine ⟨by rw [hscopes, Array.size_push]; omega, fun m hm _ => ?_,
    fun h => ⟨Nat.lt_of_lt_of_le h.nonempty hsets, fun u hu => ?_⟩⟩
  · rw [SameAt, hscopes, Array.getElem?_push_lt hm, Array.getElem?_eq_getElem hm]
  · rw [hscopes, Array.mem_push] at hu
    rcases hu with hu | rfl
    · exact Nat.lt_of_lt_of_le (h.hasSet u hu) hsets
    · exact ht h

theorem frames_fork (s : Session) (number : Nat) (o : ForkOptions) :
    s.Frames number (s.fork number o) := by
  unfold fork
  split
  · exact frames_push rfl (by simp) fun _ => by simp
  · exact frames_push rfl (Nat.le_refl _) fun h => h.conditionSetOf_lt number

theorem frames_within {α : Type} {m : Lowering α} {a : α} (h : s.within number m = .ok (a, s')) :
    s.Frames number s' := by
  unfold within at h
  split at h
  · obtain ⟨-, rfl⟩ := Prod.mk.inj (Except.ok.inj h)
    rename_i state _
    have hregistry : s.Frames number { s with registry := state.registry } := .of_scopes rfl rfl
    exact hregistry.trans (frames_setScope _ number state.scope)
  · cases h

/-- A step leaves the scopes that it is not about as they were. -/
theorem perform_frames {step : Step} {answer : Answer} {shown : Nat}
    (h : s.perform number step = .ok (answer, shown, s')) : s.Frames number s' := by
  have hpure : ∀ {s₁ : Session} {a : Answer},
      (Except.ok (a, number, s₁) : Except Fault _) = .ok (answer, shown, s') → s₁ = s' :=
    fun h => (Prod.mk.inj (Prod.mk.inj (Except.ok.inj h)).2).2
  cases step with
  | fork o =>
    obtain ⟨-, h⟩ := Prod.mk.inj (Except.ok.inj h)
    obtain ⟨-, rfl⟩ := Prod.mk.inj h
    exact frames_fork s number o
  | read name | write name | operands e | target e | flatten e carried | block body =>
    obtain ⟨⟨a, s₁⟩, hwithin, h⟩ := except_bind_eq_ok.mp h
    rw [← hpure h]
    exact frames_within hwithin
  | next base | take key | emit text | sink | log =>
    rw [← hpure h]
    exact .of_scopes rfl rfl
  | claim name =>
    unfold perform at h
    dsimp only at h
    split at h
    · rw [← hpure h]
      exact .of_scopes rfl rfl
    · rw [← hpure h]
      exact .of_scopes rfl rfl
  | absorb map source =>
    rw [← hpure h]
    exact frames_setScope s number _
  | modules ms =>
    unfold perform at h
    dsimp only at h
    split at h
    · cases h
    · rw [← hpure h]
      exact .of_scopes rfl rfl

theorem wellFormed_start : ({} : Session).WellFormed :=
  ⟨by decide, fun t ht => by
    obtain rfl := Array.mem_singleton.mp ht
    decide⟩

/-- A session that performs steps, each about a scope. -/
inductive Performs : Session → List (Nat × Step) → Session → Prop
  | nil {s : Session} : Performs s [] s
  | cons {s s' s'' : Session} {number shown : Nat} {step : Step} {answer : Answer}
      {steps : List (Nat × Step)} (h : s.perform number step = .ok (answer, shown, s'))
      (rest : Performs s' steps s'') : Performs s ((number, step) :: steps) s''

/-- However many steps are performed, a scope that none of them is about stays as it is. -/
theorem Performs.sameAt {steps : List (Nat × Step)} (h : Performs s steps s')
    (hm : m < s.scopes.size) (hother : ∀ p ∈ steps, p.1 ≠ m) : s.SameAt s' m := by
  induction h with
  | nil => rfl
  | cons hstep _ ih =>
    obtain ⟨hne, hother⟩ := List.forall_mem_cons.mp hother
    have hframes := perform_frames hstep
    exact (ih (Nat.lt_of_lt_of_le hm hframes.size) hother).trans (hframes.others m hm hne.symm)

theorem Performs.wellFormed {steps : List (Nat × Step)} (h : Performs s steps s')
    (hs : s.WellFormed) : s'.WellFormed := by
  induction h with
  | nil => exact hs
  | cons hstep _ ih => exact ih ((perform_frames hstep).wellFormed hs)

section
variable {scope : Scope}

theorem scopeAt_of_getElem? {t : SharedScope} (h : s.scopes[number]? = some t) :
    s.scopeAt number =
      { t.scope with conditions := (s.conditionSets[t.conditionSet]?).getD [] } := by
  rw [scopeAt, h]

theorem conditionSetOf_of_getElem? {t : SharedScope} (h : s.scopes[number]? = some t) :
    s.conditionSetOf number = t.conditionSet := by
  simp [conditionSetOf, h]

/-- A scope that was set is found again. -/
theorem scopeAt_setScope (h : s.WellFormed) (hnumber : number < s.scopes.size) :
    (s.setScope number scope).scopeAt number = scope := by
  have hscopes : (s.setScope number scope).scopes[number]? =
      some ⟨scope, s.conditionSetOf number⟩ := by
    rw [setScope, Array.getElem?_setIfInBounds_self_of_lt hnumber]
  rw [scopeAt_of_getElem? hscopes]
  have hsets : (s.setScope number scope).conditionSets[s.conditionSetOf number]? =
      some scope.conditions := by
    rw [setScope, Array.getElem?_setIfInBounds_self_of_lt (h.conditionSetOf_lt number)]
  simp only [hsets, Option.getD_some]

/-- Scopes that share a set of conditions share those that are set, and nothing else. -/
theorem scopeAt_setScope_ne (h : s.WellFormed) (hm : m < s.scopes.size) (hne : m ≠ number) :
    (s.setScope number scope).scopeAt m =
      if s.conditionSetOf m = s.conditionSetOf number then
        { s.scopeAt m with conditions := scope.conditions }
      else s.scopeAt m := by
  have hget := Array.getElem?_eq_getElem hm
  have hset := conditionSetOf_of_getElem? hget
  have hscopes : (s.setScope number scope).scopes[m]? = some s.scopes[m] := by
    rw [setScope, Array.getElem?_setIfInBounds_ne hne.symm, hget]
  rw [scopeAt_of_getElem? hscopes, scopeAt_of_getElem? hget, hset]
  by_cases hsame : s.scopes[m].conditionSet = s.conditionSetOf number
  · have hlt := h.conditionSetOf_lt number
    rw [if_pos hsame, hsame, setScope, Array.getElem?_setIfInBounds_self_of_lt hlt]
    rfl
  · rw [if_neg hsame, setScope, Array.getElem?_setIfInBounds_ne (Ne.symm hsame)]

end

section
variable {o : ForkOptions}

theorem fork_registry (s : Session) (number : Nat) (o : ForkOptions) :
    (s.fork number o).registry = s.registry := by
  unfold fork
  split <;> rfl

theorem size_fork (s : Session) (number : Nat) (o : ForkOptions) :
    (s.fork number o).scopes.size = s.scopes.size + 1 := by
  unfold fork
  split <;> simp

theorem fork_isolated (ho : o.conditions.isSome = true) : s.fork number o =
    { s with
      scopes := s.scopes.push ⟨(s.scopeAt number).fork o, s.conditionSets.size⟩
      conditionSets := s.conditionSets.push ((s.scopeAt number).fork o).conditions } :=
  if_pos ho

theorem fork_sharing (ho : o.conditions = none) : s.fork number o =
    { s with scopes := s.scopes.push ⟨(s.scopeAt number).fork o, s.conditionSetOf number⟩ } :=
  if_neg (by simp [ho])

/-- The new scope of a session is the fork of the old one. -/
theorem scopeAt_fork (hnumber : number < s.scopes.size) :
    (s.fork number o).scopeAt s.scopes.size = (s.scopeAt number).fork o := by
  cases hconditions : o.conditions with
  | some own =>
    rw [fork_isolated (by simp [hconditions]), scopeAt_of_getElem? Array.getElem?_push_size]
    simp
  | none =>
    have hget := Array.getElem?_eq_getElem hnumber
    have hset := conditionSetOf_of_getElem? hget
    have hshared : ((s.scopeAt number).fork o).conditions =
        (s.conditionSets[s.conditionSetOf number]?).getD [] := by
      rw [Scope.fork, hconditions, hset, scopeAt_of_getElem? hget]
      rfl
    rw [fork_sharing hconditions, scopeAt_of_getElem? Array.getElem?_push_size, ← hshared]

theorem scopeAt_fork_ne (number : Nat) (h : s.WellFormed) (hm : m < s.scopes.size) :
    (s.fork number o).scopeAt m = s.scopeAt m := by
  have hget := Array.getElem?_eq_getElem hm
  have hlt := h.hasSet _ (Array.getElem_mem hm)
  rw [scopeAt_of_getElem? hget]
  unfold fork
  split
  · rw [scopeAt_of_getElem? ((Array.getElem?_push_lt hm).trans rfl)]
    simp only [Array.getElem?_push_lt hlt, Array.getElem?_eq_getElem hlt]
  · rw [scopeAt_of_getElem? ((Array.getElem?_push_lt hm).trans rfl)]

/-- Only a fork that brings no conditions has its set in common with the old scope. -/
theorem conditionSetOf_fork (h : s.WellFormed) (hnumber : number < s.scopes.size) :
    (s.fork number o).conditionSetOf number = (s.fork number o).conditionSetOf s.scopes.size ↔
      o.conditions = none := by
  have hlt := h.conditionSetOf_lt number
  have hold : ∀ t, ((s.scopes.push t)[number]?).map SharedScope.conditionSet =
      (s.scopes[number]?).map SharedScope.conditionSet := fun t => by
    rw [Array.getElem?_push_lt hnumber, Array.getElem?_eq_getElem hnumber]
  cases hconditions : o.conditions with
  | some own =>
    rw [fork_isolated (by simp [hconditions])]
    simp only [conditionSetOf, hold, Array.getElem?_push_size, reduceCtorEq, iff_false]
    exact Nat.ne_of_lt hlt
  | none =>
    rw [fork_sharing hconditions]
    simp only [conditionSetOf, hold, Array.getElem?_push_size, iff_true]
    rfl

/-- To run in the new scope of a session is to run in a fork of the old one. -/
theorem within_fork {α : Type} {k : Lowering α} {a : α} {inner : Scope} {t : LoweringState}
    (hs : s.WellFormed) (hnumber : number < s.scopes.size)
    (h : inFork o k ⟨s.scopeAt number, s.registry⟩ = .ok ((a, inner), t)) :
    ∃ s', (s.fork number o).within s.scopes.size k = .ok (a, s') ∧ s'.registry = t.registry ∧
      s'.scopeAt number = t.scope ∧ s'.scopeAt s.scopes.size = inner := by
  have hframes := frames_fork s number o
  have hsize : s.scopes.size < (s.fork number o).scopes.size := by
    have := s.size_fork number o
    omega
  unfold inFork at h
  dsimp only at h
  split at h
  · rename_i b state hk
    obtain ⟨hb, rfl⟩ := Prod.mk.inj (Except.ok.inj h)
    obtain ⟨rfl, rfl⟩ := Prod.mk.inj hb
    have hforked : { s.fork number o with registry := state.registry }.WellFormed :=
      ⟨(hframes.wellFormed hs).nonempty, (hframes.wellFormed hs).hasSet⟩
    refine ⟨_, ?_, rfl, ?_, scopeAt_setScope hforked hsize⟩
    · rw [within, scopeAt_fork hnumber, fork_registry, hk]
    · have hold := scopeAt_fork_ne (o := o) number hs hnumber
      have hset := conditionSetOf_fork (o := o) hs hnumber
      refine (scopeAt_setScope_ne hforked (Nat.lt_of_lt_of_le hnumber hframes.size)
        (Nat.ne_of_lt hnumber)).trans ?_
      cases ho : o.conditions with
      | some own =>
        have hown : ¬o.conditions = none := by simp [ho]
        exact (if_neg fun he => hown (hset.mp he)).trans hold
      | none =>
        refine (if_pos (hset.mpr ho)).trans ?_
        exact congrArg (fun c : Scope => { c with conditions := state.scope.conditions }) hold
  · cases h

end
end Session
end ProgramGraph
