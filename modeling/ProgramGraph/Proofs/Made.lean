import Mathlib.Data.List.Forall2
import Mathlib.Data.List.Infix
import ProgramGraph.Proofs.Layout

/-! The functions that statements make: each has a new name and a record that computes its target. -/
namespace ProgramGraph

open ProgramGraph.Graph Lowering Registry

/-- Parts of names that only functions made by the lowering have. -/
def roles : List String := ["__assign__", "__condition__", "__decision__", "__loop_plate__"]

def HasRole (name : String) : Prop := ∃ role ∈ roles, role.toList <:+: name.toList

instance (name : String) : Decidable (HasRole name) := by
  unfold HasRole; infer_instance

/-- A record computes the target of a function. -/
def Computes (f : Function) (r : Record) : Prop :=
  ∃ output input, r = .value f.name output input ∧ f.target? = some output.name

/-- What a statement makes between two states of the registry. -/
structure Makes (r : Registry) (f : Fragment) (r' : Registry) : Prop where
  generated : Generated r (f.functions.map Function.name) r'
  computes : List.Forall₂ Computes f.functions f.records
  role : ∀ g ∈ f.functions, HasRole g.name

theorem hasRole_nameOf {role : String} (h : role ∈ roles) (owner x : String) (n : Nat) :
    HasRole (nameOf (owner ++ role ++ x) n) := by
  refine ⟨role, h, owner.toList, x.toList ++ ("_" : String).toList ++ (toString n).toList, ?_⟩
  unfold nameOf
  simp only [String.toList_append, List.append_assoc]

theorem exists_of_mem_right {α β : Type} {R : α → β → Prop} {as : List α} {bs : List β}
    (h : List.Forall₂ R as bs) {b : β} (hb : b ∈ bs) : ∃ a ∈ as, R a b := by
  induction h with
  | nil => cases hb
  | @cons a b as bs hab _ ih =>
    rcases List.mem_cons.mp hb with rfl | hb
    · exact ⟨a, List.mem_cons_self, hab⟩
    · obtain ⟨c, hc, h⟩ := ih hb
      exact ⟨c, List.mem_cons_of_mem _ hc, h⟩

namespace Makes
variable {r r' r'' : Registry} {f g : Fragment}

theorem nil (h : Before r r') : Makes r ∅ r' := ⟨.nil h, .nil, nofun⟩

theorem append (h : Makes r f r') (h' : Makes r' g r'') : Makes r (f ++ g) r'' where
  generated := by
    change Generated r ((f.functions ++ g.functions).map Function.name) r''
    rw [List.map_append]
    exact h.generated.append h'.generated
  computes := List.rel_append h.computes h'.computes
  role k hk := (List.mem_append.mp hk).elim (h.role k) (h'.role k)

theorem after (h : Before r r') (h' : Makes r' f r'') : Makes r f r'' := (nil h).append h'

/-- Every record computes the target of a function. -/
theorem exists_computes (h : Makes r f r') {k : Record} (hk : k ∈ f.records) :
    ∃ g ∈ f.functions, Computes g k := exists_of_mem_right h.computes hk

theorem exists_target (h : Makes r f r') {g : Function} (hg : g ∈ f.functions) :
    ∃ x, g.target? = some x := by
  obtain ⟨k, -, output, -, -, ht⟩ := exists_of_mem_right h.computes.flip hg
  exact ⟨output.name, ht⟩

theorem value_of_mem (h : Makes r f r') {k : Record} (hk : k ∈ f.records) :
    ∃ name output input, k = .value name output input := by
  obtain ⟨g, -, output, input, hg, -⟩ := h.exists_computes hk
  exact ⟨g.name, output, input, hg⟩

/-- One function and its record. -/
theorem single {role owner x : String} {made : Function} {record : Record}
    (hrole : role ∈ roles) (hname : made.name = (r.next (owner ++ role ++ x)).1)
    (hcomputes : Computes made record) (h : Before (r.next (owner ++ role ++ x)).2 r') :
    Makes r ⟨[made], [record]⟩ r' where
  generated := by
    have hg := (Generated.next r (owner ++ role ++ x)).append (.nil h)
    rw [List.append_nil, ← hname] at hg
    exact hg
  computes := .cons hcomputes .nil
  role k hk := by
    obtain rfl := List.mem_singleton.mp hk
    rw [hname, next_fst]
    exact hasRole_nameOf hrole owner x _

end Makes

namespace Lowering

theorem assignTarget_makes {statement : Except Fault String} {line : Option Int}
    {operands : List Operand} {t : Target} {s s' : LoweringState} {f : Fragment}
    (h : assignTarget statement line operands t s = .ok (f, s')) :
    Makes s.registry f s'.registry := by
  obtain ⟨payload, rfl, h | h⟩ := assignTarget_eq_ok h
  · obtain ⟨l, -, -, rfl⟩ := h
    exact .single (by decide : "__assign__" ∈ roles) rfl ⟨_, _, rfl, rfl⟩ (.refl _)
  · obtain ⟨body, -, -, rfl⟩ := h
    exact .single (by decide) rfl ⟨_, _, rfl, rfl⟩ (before_render _ _ _)

theorem assignTargets_makes {statement : Except Fault String} {line : Option Int}
    {operands : List Operand} {ts : List Target} {s s' : LoweringState} {f : Fragment}
    (h : assignTargets statement line operands ts s = .ok (f, s')) :
    Makes s.registry f s'.registry := by
  refine assignTargets_induction (motive := fun s f s' => Makes s.registry f s'.registry) h
    (fun s => .nil (.refl _)) .append fun t _ => assignTarget_makes

theorem assign_makes {targets : List Expr} {value : Expr} {line : Option Int}
    {s s' : LoweringState} {f : Fragment} (h : assign targets value line s = .ok (f, s')) :
    Makes s.registry f s'.registry := by
  obtain ⟨operands, v, written, v', -, -, hf⟩ := assign_eq_ok h
  have hmakes := assignTargets_makes hf
  exact hmakes

theorem annAssign_makes {target typeExpr : Expr} {value : Option Expr} {line : Option Int}
    {s s' : LoweringState} {f : Fragment} (h : annAssign target typeExpr value line s = .ok (f, s')) :
    Makes s.registry f s'.registry := by
  obtain ⟨x, d, -, ⟨-, rfl, rfl⟩ | h⟩ := annAssign_eq_ok h
  · exact .nil (.refl _)
  · obtain ⟨e, operands, v, written, v', -, -, -, hf⟩ := h
    have hmakes := assignTargets_makes hf
    exact hmakes

theorem condition_makes {test : Expr} {line : Option Int} {s s' : LoweringState} {f : Fragment}
    {output : Reference} (h : condition test line s = .ok ((f, output), s')) :
    Makes s.registry f s'.registry := by
  obtain ⟨operands, v, text, -, -, rfl, rfl, rfl⟩ := condition_eq_ok h
  exact .after (before_take _ _)
    (.single (by decide : "__condition__" ∈ roles) rfl ⟨_, _, rfl, rfl⟩ (before_render _ _ _))

theorem mergeVariable_makes {test : Reference} {start thenExit elseExit : Table Int} {x : String}
    {s s' : LoweringState} {f : Fragment}
    (h : mergeVariable test start thenExit elseExit x s = .ok (f, s')) :
    Makes s.registry f s'.registry := by
  rcases mergeVariable_eq_ok h with ⟨-, rfl, rfl⟩ | ⟨-, -, rfl, rfl⟩ | ⟨-, a, b, -, rfl, rfl⟩
  · exact .nil (.refl _)
  · refine .nil ?_
    split <;> exact .refl _
  · exact .single (by decide) rfl ⟨_, _, rfl, rfl⟩ (.refl _)

theorem mergeVariables_makes {test : Reference} {start thenExit elseExit : Table Int}
    {names : List String} {s s' : LoweringState} {f : Fragment}
    (h : mergeVariables test start thenExit elseExit names s = .ok (f, s')) :
    Makes s.registry f s'.registry := by
  refine mergeVariables_induction (motive := fun s f s' => Makes s.registry f s'.registry) h
    (fun s => .nil (.refl _)) .append fun x _ => mergeVariable_makes

/-- Parameters name nothing. -/
theorem registry_parameters {parameters : List Parameter} {line : Option Int}
    {s s' : LoweringState} (h : parameters.forM (parameter line) s = .ok ((), s')) :
    s'.registry = s.registry := by
  refine parameters_induction (motive := fun t => t.registry = s.registry) h rfl ?_
  exact fun _ _ _ _ ht => ht

end Lowering

/-- Lowering counts and claims, and takes nothing back. -/
theorem Lowers.before {block : List Stmt} {s s' : LoweringState} {L : Layout}
    (h : Lowers block s L s') : s.registry.Before s'.registry := by
  induction h with
  | nil => exact .refl _
  | assign hmade _ ih => exact (assign_makes hmade).generated.before.trans ih
  | annAssign hmade _ ih => exact (annAssign_makes hmade).generated.before.trans ih
  | effect hmade _ ih =>
    obtain ⟨callee, input, v, -, rfl⟩ := effect_eq_call hmade
    exact ih
  | branch htest _ _ hmerge _ ihT ihE ih =>
    have ht := (condition_makes htest).generated.before
    have hm := (mergeVariables_makes hmerge).generated.before
    exact (((ht.trans ihT).trans ihE).trans hm).trans ih
  | loop _ _ _ _ _ ihB ih => exact (ihB.trans (before_next _ _)).trans ih
  | definition hclaim hparameters _ _ _ _ ihB ih =>
    rw [registry_parameters hparameters] at ihB
    exact ((before_claim? hclaim).trans ihB).trans ih

/-- A definition claims its name before its body is lowered. -/
theorem Lowers.before_of_definition {name : String} {parameters : List Parameter}
    {line : Option Int} {body : List Stmt} {s s₁ s₂ : LoweringState} {r : Registry} {B : Layout}
    (hclaim : s.registry.claim? name = some r)
    (hparameters : parameters.forM (parameter line) (.enterFunction name r) = .ok ((), s₁))
    (hbody : Lowers body s₁ B s₂) : s.registry.Before s₂.registry := by
  have hbefore := hbody.before
  rw [registry_parameters hparameters] at hbefore
  exact (before_claim? hclaim).trans hbefore

end ProgramGraph
