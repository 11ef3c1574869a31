import ProgramGraph.Proofs.Independence.Keys
import ProgramGraph.Proofs.Statements
import ProgramGraph.Proofs.Validity.Admissible

/-! Lowering with two registries side by side, one of which holds in addition what other functions
left in it. What a function becomes does not show the difference: all that can happen is that one of
its names is taken. -/
namespace ProgramGraph

open ProgramGraph.Graph Lowering Registry

/-- A registry that counts only for functions whose names it holds. -/
structure Registry.Tidy (r : Registry) : Prop where
  owned : ∀ key, r.count key ≠ 0 → ∃ owner ∈ r.claimed, Owns owner key
  plain : ∀ owner ∈ r.claimed, IsPlainName owner

theorem Registry.tidy_empty : Registry.empty.Tidy := ⟨fun _ h => absurd rfl h, nofun⟩

/-- The joint registry holds what the base holds and what a function adds of its own. -/
structure Beside (base own joint : Registry) : Prop where
  others : base.Tidy
  tidy : own.Tidy
  disjoint : ∀ x ∈ own.claimed, x ∉ base.claimed
  count : ∀ key, joint.count key = base.count key + own.count key
  claimed : ∀ x, x ∈ joint.claimed ↔ x ∈ own.claimed ∨ x ∈ base.claimed
  sink : joint.sink = base.sink ++ own.sink

namespace Beside
variable {base own joint : Registry} {owner key name : String}

theorem empty (hbase : base.Tidy) : Beside base .empty base where
  others := hbase
  tidy := tidy_empty
  disjoint := nofun
  count _ := rfl
  claimed x := by simp [Registry.empty]
  sink := by simp [Registry.empty]

theorem joint_tidy (h : Beside base own joint) : joint.Tidy where
  owned key hkey := by
    rw [h.count] at hkey
    by_cases hown : own.count key = 0
    · obtain ⟨owner, howner, howns⟩ := h.others.owned key (by omega)
      exact ⟨owner, (h.claimed owner).mpr (.inr howner), howns⟩
    · obtain ⟨owner, howner, howns⟩ := h.tidy.owned key hown
      exact ⟨owner, (h.claimed owner).mpr (.inl howner), howns⟩
  plain owner howner :=
    ((h.claimed owner).mp howner).elim (h.tidy.plain owner) (h.others.plain owner)

/-- Other functions have not touched the counters of this one. -/
theorem count_eq (h : Beside base own joint) (howner : owner ∈ own.claimed)
    (hkey : Owns owner key) : joint.count key = own.count key := by
  have hbase : base.count key = 0 := by
    by_contra hne
    obtain ⟨other, hother, howns⟩ := h.others.owned key hne
    obtain rfl := hkey.unique howns (h.tidy.plain owner howner) (h.others.plain other hother)
    exact h.disjoint owner howner hother
  rw [h.count, hbase, Nat.zero_add]

theorem take (h : Beside base own joint) (howner : owner ∈ own.claimed) (hkey : Owns owner key) :
    Beside base (own.take key).2 (joint.take key).2 where
  others := h.others
  tidy := by
    refine ⟨fun x hx => ?_, h.tidy.plain⟩
    rw [count_take] at hx
    split at hx
    · subst x
      exact ⟨owner, howner, hkey⟩
    · exact h.tidy.owned x hx
  disjoint := h.disjoint
  count x := by
    rw [count_take, count_take]
    split
    · subst x
      have hcount := h.count key
      omega
    · exact h.count x
  claimed := h.claimed
  sink := h.sink

theorem emit (h : Beside base own joint) (text : String) :
    Beside base (own.emit text) (joint.emit text) where
  others := h.others
  tidy := ⟨h.tidy.owned, h.tidy.plain⟩
  disjoint := h.disjoint
  count := h.count
  claimed := h.claimed
  sink := by
    change joint.sink ++ [text] = base.sink ++ (own.sink ++ [text])
    rw [h.sink, List.append_assoc]

theorem claim (h : Beside base own joint) (hplain : IsPlainName name)
    (hname : name ∉ base.claimed) :
    Beside base { own with claimed := name :: own.claimed }
      { joint with claimed := name :: joint.claimed } where
  others := h.others
  tidy := by
    refine ⟨fun key hkey => ?_, List.forall_mem_cons.mpr ⟨hplain, h.tidy.plain⟩⟩
    obtain ⟨owner, howner, howns⟩ := h.tidy.owned key hkey
    exact ⟨owner, List.mem_cons_of_mem _ howner, howns⟩
  disjoint := List.forall_mem_cons.mpr ⟨hname, h.disjoint⟩
  count := h.count
  claimed x := by simp only [List.mem_cons, h.claimed, or_assoc]
  sink := h.sink

end Beside

/-- Results with both registries. One of them alone is an error only where a name that is claimed
is in the base already. -/
inductive Agree {α : Type} (base : Registry) :
    Except Fault (α × LoweringState) → Except Fault (α × LoweringState) → Prop
  | ok {a : α} {s : Scope} {own joint : Registry} (h : Beside base own joint) :
      Agree base (.ok (a, ⟨s, own⟩)) (.ok (a, ⟨s, joint⟩))
  | error {f f' : Fault} : Agree base (.error f) (.error f')
  | taken {a : α} {s : LoweringState} {f : Fault} {x : String} (hx : x ∈ s.registry.claimed)
      (hbase : x ∈ base.claimed) : Agree base (.ok (a, s)) (.error f)

/-- Inside one function, a computation stays in it, keeps the names that were claimed, and does
the same with both registries. -/
structure Parallel {α : Type} (base : Registry) (owner : String) (m : Lowering α) : Prop where
  keeps {s s' : LoweringState} {a : α} (hs : s.owner = owner) (h : m s = .ok (a, s')) :
    s'.owner = owner ∧ ∀ x ∈ s.registry.claimed, x ∈ s'.registry.claimed
  agree {s : Scope} {own joint : Registry} (hs : s.name = owner) (howner : owner ∈ own.claimed)
    (h : Beside base own joint) : Agree base (m ⟨s, own⟩) (m ⟨s, joint⟩)

namespace Parallel
variable {α β : Type} {base : Registry} {owner : String} {m : Lowering α} {f : α → Lowering β}

theorem bind (h : Parallel base owner m) (h' : ∀ a, Parallel base owner (f a)) :
    Parallel base owner (m >>= f) where
  keeps hs hrun := by
    obtain ⟨a, t, hm, hf⟩ := bind_eq_ok.mp hrun
    obtain ⟨ht, hmono⟩ := h.keeps hs hm
    obtain ⟨hs', hmono'⟩ := (h' a).keeps ht hf
    exact ⟨hs', fun x hx => hmono' x (hmono x hx)⟩
  agree {s own joint} hs howner hb := by
    have hfirst := h.agree hs howner hb
    have hkeeps := fun a s' => @h.keeps ⟨s, own⟩ s' a hs
    change Agree base (m ⟨s, own⟩ >>= fun p => f p.1 p.2) (m ⟨s, joint⟩ >>= fun p => f p.1 p.2)
    generalize m ⟨s, own⟩ = x at hfirst hkeeps
    generalize m ⟨s, joint⟩ = y at hfirst
    cases hfirst with
    | @ok a t own' joint' hb' =>
      obtain ⟨ht, hmono⟩ := hkeeps a _ rfl
      exact (h' a).agree ht (hmono owner howner) hb'
    | error => exact .error
    | @taken a t fault x hx hbase =>
      obtain ⟨ht, -⟩ := hkeeps a t rfl
      change Agree base (f a t) (.error fault)
      cases hrest : f a t with
      | error => exact .error
      | ok p => exact .taken (((h' a).keeps ht hrest).2 x hx) hbase

/-- A computation that only looks at the scope cannot tell registries apart. -/
theorem of_scope (g : Scope → Except Fault (α × Scope))
    (hm : ∀ s r, m ⟨s, r⟩ = (g s).map fun p => (p.1, ⟨p.2, r⟩))
    (hg : ∀ s a t, g s = .ok (a, t) → t.name = s.name) : Parallel base owner m where
  keeps {s s' a} hs h := by
    obtain ⟨scope, r⟩ := s
    rw [hm] at h
    cases hscope : g scope with
    | error => simp [hscope, Except.map] at h
    | ok p =>
      obtain ⟨a', t⟩ := p
      rw [hscope] at h
      obtain ⟨rfl, rfl⟩ : a' = a ∧ ⟨t, r⟩ = s' := by simpa [Except.map] using h
      exact ⟨(hg scope _ t hscope).trans hs, fun x hx => hx⟩
  agree {s own joint} _ _ hb := by
    rw [hm, hm]
    cases g s with
    | error => exact .error
    | ok p => exact .ok hb

theorem pure (a : α) : Parallel base owner (pure a : Lowering α) :=
  of_scope (fun s => .ok (a, s)) (fun _ _ => rfl) (by simp)

theorem refuse (cause : Refusal) (line : Option Int) :
    Parallel base owner (Lowering.refuse cause line : Lowering α) :=
  of_scope (fun _ => .error ⟨cause, line⟩) (fun _ _ => rfl) (by simp)

theorem ofResult (r : Except Fault α) : Parallel base owner (Lowering.ofResult r) := by
  cases r with
  | error f => exact of_scope (fun _ => .error f) (fun _ _ => rfl) (by simp)
  | ok a => exact pure a

theorem modifyScope {g : Scope → Scope} (hg : ∀ s, (g s).name = s.name) :
    Parallel base owner (Lowering.modifyScope g) := by
  refine of_scope (fun s => .ok ((), g s)) (fun _ _ => rfl) fun s _ t h => ?_
  obtain ⟨-, rfl⟩ := Prod.mk.inj (Except.ok.inj h)
  exact hg s

theorem versioning (m : Versioning α) : Parallel base owner (Lowering.versioning m) := by
  refine of_scope
    (fun s => (m s.versions).map fun p => (p.1, { s with versions := p.2 })) ?_ ?_
  · intro s r
    unfold Lowering.versioning
    dsimp only
    cases m s.versions <;> rfl
  · intro s a t h
    cases hm : m s.versions with
    | error => simp [hm, Except.map] at h
    | ok p =>
      obtain ⟨-, rfl⟩ : p.1 = a ∧ { s with versions := p.2 } = t := by
        simpa [hm, Except.map] using h
      rfl

theorem latest : Parallel base owner Lowering.latest :=
  of_scope (fun s => .ok (s.versions.latest, s)) (fun _ _ => rfl) (by simp)

theorem scope_bind {f : Scope → Lowering β} (h : ∀ s, s.name = owner → Parallel base owner (f s)) :
    Parallel base owner (scope >>= f) where
  keeps {s s' _} hs hrun := by
    obtain ⟨_, _, ⟨⟩, hf⟩ := bind_eq_ok.mp hrun
    exact (h s.scope hs).keeps hs hf
  agree hs howner hb := (h _ hs).agree hs howner hb

theorem take {key : String} (hkey : Owns owner key) : Parallel base owner (Lowering.take key) where
  keeps hs hrun := by
    obtain ⟨-, rfl⟩ := take_eq_ok.mp hrun
    exact ⟨hs, fun x hx => hx⟩
  agree {s own joint} hs howner hb := by
    have hcount : (joint.take key).1 = (own.take key).1 := hb.count_eq howner hkey
    change Agree base (.ok ((own.take key).1, ⟨s, (own.take key).2⟩))
      (.ok ((joint.take key).1, ⟨s, (joint.take key).2⟩))
    rw [hcount]
    exact .ok (hb.take howner hkey)

theorem next {key : String} (hkey : Owns owner key) : Parallel base owner (Lowering.next key) :=
  (take hkey).bind fun n => pure (nameOf key n)

theorem emit (l : Lambda) : Parallel base owner (Lowering.emit l) where
  keeps hs hrun := by
    obtain rfl := emit_eq_ok.mp hrun
    exact ⟨hs, fun x hx => hx⟩
  agree _ _ hb := .ok (hb.emit l.source)

end Parallel
end ProgramGraph
