import ProgramGraph.Proofs.Program

/-! Lambdas are written while functions are made: in the order of the functions that refer to them,
one for each. -/
namespace ProgramGraph

open ProgramGraph.Graph Lowering LoweringState Registry

namespace Graph.Function

/-- The name of the lambda that a function refers to. -/
def lambda? : Function → Option String
  | .assign _ _ _ (.lambda name _) => some name
  | _ => none

/-- The variables among the sources of a function. -/
def sourceVariables : Function → List String
  | .assign _ _ sources _ | .decision _ _ sources => sources.filterMap Source.variable?
  | .container .. | .loopPlate .. => []

end Graph.Function

/-- A function refers to a lambda, which takes its variables, each once. -/
structure RefersTo (f : Function) (l : Lambda) : Prop where
  name : f.lambda? = some l.name
  inputs : l.inputs = f.sourceVariables
  nodup : l.inputs.Nodup

/-- The text of a lambda starts with its name and its parameters. -/
theorem Lambda.source_eq (l : Lambda) :
    ∃ body, l.source = "def " ++ l.name ++ "(" ++ ", ".intercalate l.inputs ++ "):\n" ++ body := by
  have htail : (l.body ++ ["return " ++ l.returns]).map ("    " ++ ·) ≠ [] := by simp
  refine ⟨"\n".intercalate ((l.body ++ ["return " ++ l.returns]).map ("    " ++ ·)) ++ "\n\n", ?_⟩
  rw [Lambda.source, String.intercalate_cons_of_ne_nil htail]
  simp only [String.append_assoc]
  rfl

theorem Operand.nodup_parameters (operands : List Operand) (carried : List Reference) :
    (parameters operands carried).Nodup := by
  refine List.Nodup.filterMap (fun a b x ha hb => ?_) (nodup_distinct _)
  cases a with
  | function name => cases ha
  | var name =>
    cases b with
    | function name => cases hb
    | var name' =>
      have hname : name = x := Option.some.inj ha
      have hname' : name' = x := Option.some.inj hb
      rw [hname, hname']

/-- Between two states of the registry lambdas are written for functions: one for each function that
refers to a lambda, in the same order, under a new name. -/
def Rendered (r : Registry) (fs : List Function) (r' : Registry) : Prop :=
  ∃ lambdas : List Lambda, r'.sink = r.sink ++ lambdas.map Lambda.source ∧
    List.Forall₂ RefersTo (fs.filter (·.lambda?.isSome)) lambdas ∧
    Generated r (lambdas.map Lambda.name) r'

namespace Rendered
variable {r r' r'' : Registry} {fs gs : List Function}

/-- Functions without lambdas. -/
theorem silent (h : Before r r') (hsink : r'.sink = r.sink) (hfs : ∀ f ∈ fs, f.lambda? = none) :
    Rendered r fs r' := by
  have hnone : fs.filter (·.lambda?.isSome) = [] :=
    List.filter_eq_nil_iff.mpr fun f hf => by simp [hfs f hf]
  refine ⟨[], by simp [hsink], ?_, .nil h⟩
  rw [hnone]
  exact .nil

theorem append (h : Rendered r fs r') (h' : Rendered r' gs r'') : Rendered r (fs ++ gs) r'' := by
  obtain ⟨ls, hsink, hrefers, hnames⟩ := h
  obtain ⟨ls', hsink', hrefers', hnames'⟩ := h'
  refine ⟨ls ++ ls', ?_, ?_, ?_⟩
  · rw [hsink', hsink, List.map_append, List.append_assoc]
  · rw [List.filter_append]
    exact List.rel_append hrefers hrefers'
  · rw [List.map_append]
    exact hnames.append hnames'

/-- One function with its lambda. -/
theorem single {base name target : String} {operands : List Operand} {carried : List Reference}
    {line : Option Int} {body : List String} {returns : String} :
    Rendered r
      [.assign name target (Operand.sources operands carried) (.lambda (r.next base).1 line)]
      ((r.next base).2.emit
        (Lambda.source ⟨(r.next base).1, Operand.parameters operands carried, body, returns⟩)) := by
  refine ⟨[⟨(r.next base).1, Operand.parameters operands carried, body, returns⟩], rfl, ?_, ?_⟩
  · exact .cons ⟨rfl, rfl, Operand.nodup_parameters operands carried⟩ .nil
  · exact (Generated.next r base).append (.nil (before_emit _ _))

end Rendered

namespace Lowering

theorem assignTargets_rendered {statement : Except Fault String} {line : Option Int}
    {operands : List Operand} {ts : List Target} {s s' : LoweringState} {f : Fragment}
    (h : assignTargets statement line operands ts s = .ok (f, s')) :
    Rendered s.registry f.functions s'.registry := by
  refine assignTargets_induction
    (motive := fun s f s' => Rendered s.registry f.functions s'.registry) h
    (fun s => .silent (.refl _) rfl nofun) .append ?_
  intro t _ s s' f h
  obtain ⟨payload, rfl, h | h⟩ := assignTarget_eq_ok h
  · obtain ⟨l, -, rfl, rfl⟩ := h
    exact .silent (before_next _ _) rfl (List.forall_mem_singleton.mpr rfl)
  · obtain ⟨body, -, rfl, rfl⟩ := h
    have hnamed : Rendered s.registry []
        (s.registry.next (s.owner ++ "__assign__" ++ t.reference.name)).2 :=
      .silent (before_next _ _) rfl nofun
    exact hnamed.append .single

theorem assign_rendered {targets : List Expr} {value : Expr} {line : Option Int}
    {s s' : LoweringState} {f : Fragment} (h : assign targets value line s = .ok (f, s')) :
    Rendered s.registry f.functions s'.registry := by
  obtain ⟨operands, v, written, v', -, -, hf⟩ := assign_eq_ok h
  have hrendered := assignTargets_rendered hf
  exact hrendered

theorem annAssign_rendered {target typeExpr : Expr} {value : Option Expr} {line : Option Int}
    {s s' : LoweringState} {f : Fragment} (h : annAssign target typeExpr value line s = .ok (f, s')) :
    Rendered s.registry f.functions s'.registry := by
  obtain ⟨x, d, -, ⟨-, rfl, rfl⟩ | h⟩ := annAssign_eq_ok h
  · exact .silent (.refl _) rfl nofun
  · obtain ⟨e, operands, v, written, v', -, -, -, hf⟩ := h
    have hrendered := assignTargets_rendered hf
    exact hrendered

theorem condition_rendered {test : Expr} {line : Option Int} {s s' : LoweringState} {f : Fragment}
    {output : Reference} (h : condition test line s = .ok ((f, output), s')) :
    Rendered s.registry f.functions s'.registry := by
  obtain ⟨operands, v, text, -, -, rfl, rfl, rfl⟩ := condition_eq_ok h
  have hnamed (base : String) : Rendered s.registry []
      ((s.registry.take (s.owner ++ "#condition")).2.next base).2 :=
    .silent ((before_take _ _).trans (before_next _ _)) rfl nofun
  exact (hnamed _).append .single

theorem mergeVariables_rendered {test : Reference} {start thenExit elseExit : Table Int}
    {names : List String} {s s' : LoweringState} {f : Fragment}
    (h : mergeVariables test start thenExit elseExit names s = .ok (f, s')) :
    Rendered s.registry f.functions s'.registry := by
  refine mergeVariables_induction
    (motive := fun s f s' => Rendered s.registry f.functions s'.registry) h
    (fun s => .silent (.refl _) rfl nofun) .append ?_
  intro x _ s s' f h
  rcases mergeVariable_eq_ok h with ⟨-, rfl, rfl⟩ | ⟨-, -, rfl, rfl⟩ | ⟨-, a, b, -, rfl, rfl⟩
  · exact .silent (.refl _) rfl nofun
  · split <;> exact .silent (.refl _) rfl nofun
  · exact .silent (before_next _ _) rfl (List.forall_mem_singleton.mpr rfl)

end Lowering

/-- Lambdas are written in the order of the functions of a layout. -/
theorem Lowers.rendered {block : List Stmt} {s s' : LoweringState} {L : Layout}
    (h : Lowers block s L s') : Rendered s.registry L.functions s'.registry := by
  induction h with
  | nil => exact .silent (.refl _) rfl nofun
  | assign hmade _ ih => exact (assign_rendered hmade).append ih
  | annAssign hmade _ ih => exact (annAssign_rendered hmade).append ih
  | effect hmade _ ih =>
    obtain ⟨callee, input, v, rfl, rfl⟩ := effect_eq_call hmade
    exact ih
  | branch htest _ _ hmerge _ ihT ihE ih =>
    have htested := condition_rendered htest
    have hmerged := mergeVariables_rendered hmerge
    exact (((htested.append ihT).append ihE).append hmerged).append ih
  | @loop target iter body line rest s s₂ s₃ v index os range B L _ _ _ _ _ ihB ih =>
    have hplate : Rendered s₂.registry [.loopPlate (s₂.registry.next (s₂.plateBase index)).1
        (s₂.loopInputs index) index range B.records]
          (s₂.registry.next (s₂.plateBase index)).2 :=
      .silent (before_next _ _) rfl (List.forall_mem_singleton.mpr rfl)
    exact (ihB.append hplate).append ih
  | @definition name parameters body line rest s s₁ s₂ s₃ r input vars B L
      hclaim hparameters _ _ _ _ ihB ih =>
    rw [registry_parameters hparameters] at ihB
    obtain ⟨-, hr⟩ := claim?_eq_some hclaim
    have hclaimed : Rendered s.registry [] r :=
      .silent (before_claim? hclaim) (by rw [hr]) nofun
    have hcontainer : Rendered s₂.registry [.container name input vars B.records] s₂.registry :=
      .silent (.refl _) rfl (List.forall_mem_singleton.mpr rfl)
    exact ((hclaimed.append ihB).append hcontainer).append ih

/-- The text of the lambdas holds one definition for each function with a lambda, in the order of
the functions: under the name that the function refers to, with the variables of the function as
parameters. No name occurs twice. -/
theorem Outcome.lambdas_correspond {ms : List Module} {name date : String} {lowered : Lowered}
    (h : (Outcome.ofModules ms name date).result = .ok lowered) :
    ∃ lambdas : List Lambda, lowered.lambdaText = String.join (lambdas.map Lambda.source) ∧
      List.Forall₂ RefersTo (lowered.document.functions.filter (·.lambda?.isSome)) lambdas ∧
      (lambdas.map Lambda.name).Nodup ∧
      ∀ l ∈ lambdas, ∃ body,
        l.source = "def " ++ l.name ++ "(" ++ ", ".intercalate l.inputs ++ "):\n" ++ body := by
  obtain ⟨L, r, hL, hsink⟩ := Outcome.layout_of_ok h
  obtain ⟨lambdas, htexts, hrefers, hnames⟩ := hL.lowers.rendered
  have hall : r.sink = lambdas.map Lambda.source := htexts
  refine ⟨lambdas, ?_, ?_, hnames.nodup, fun l _ => l.source_eq⟩
  · rw [Lowered.lambdaText, hsink, hall]
  · rw [hL.functions]
    exact hrefers

theorem Outcome.lambdas_correspond_sample :
    ∃ lowered lambdas, (Outcome.ofModules Module.sample "m" "2020-01-01").result = .ok lowered ∧
      lowered.lambdaText = String.join (lambdas.map Lambda.source) ∧ lambdas.length = 5 ∧
      List.Forall₂ RefersTo (lowered.document.functions.filter (·.lambda?.isSome)) lambdas := by
  have hcount : (Outcome.ofModules Module.sample "m" "2020-01-01").result.toOption.any
      (fun lowered => (lowered.document.functions.filter (·.lambda?.isSome)).length == 5) = true := by
    decide +kernel
  obtain ⟨lowered, h, hlength⟩ := except_exists_ok_of_any hcount
  obtain ⟨lambdas, htext, hrefers, -⟩ := Outcome.lambdas_correspond h
  have hsame := hrefers.length_eq
  refine ⟨lowered, lambdas, h, htext, ?_, hrefers⟩
  rw [← hsame]
  simpa using hlength

end ProgramGraph
