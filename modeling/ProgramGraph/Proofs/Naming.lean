import ProgramGraph.Proofs.Program
import ProgramGraph.Proofs.Validity.Closure

/-! Names of parts. Whatever the lowering makes inside a function is named after that function, so
two functions of a document can share a name only where a definition is named like a part of
another one. -/
namespace ProgramGraph

open ProgramGraph.Graph Lowering LoweringState Registry

/-- A name that the lowering gives to something that `owner` contains. -/
def IsPartName (role owner name : String) : Prop := ∃ x n, name = nameOf (owner ++ role ++ x) n

theorem IsPartName.isPrefix {role owner name : String} (h : IsPartName role owner name) :
    owner.toList ++ role.toList <+: name.toList := by
  obtain ⟨x, n, rfl⟩ := h
  refine ⟨x.toList ++ ("_" : String).toList ++ (toString n).toList, ?_⟩
  simp only [nameOf, String.toList_append, List.append_assoc]

/-- All that a statement makes is named after the function it stands in. -/
structure MakesParts (role : String) (s : LoweringState) (f : Fragment) (s' : LoweringState) :
    Prop where
  owner : s'.owner = s.owner
  names : ∀ g ∈ f.functions, IsPartName role s.owner g.name

namespace MakesParts
variable {role : String} {s s' s'' : LoweringState} {f g : Fragment}

theorem nil (howner : s'.owner = s.owner) : MakesParts role s ∅ s' := ⟨howner, nofun⟩

theorem append (h : MakesParts role s f s') (h' : MakesParts role s' g s'') :
    MakesParts role s (f ++ g) s'' where
  owner := h'.owner.trans h.owner
  names := by
    refine List.forall_mem_append.mpr ⟨h.names, fun k hk => ?_⟩
    rw [← h.owner]
    exact h'.names k hk

theorem single {made : Function} {records : List Record} {r : Registry}
    {x : String} (hname : made.name = (r.next (s.owner ++ role ++ x)).1)
    (howner : s'.owner = s.owner) : MakesParts role s ⟨[made], records⟩ s' where
  owner := howner
  names := by
    refine List.forall_mem_singleton.mpr ⟨x, r.count (s.owner ++ role ++ x), ?_⟩
    rw [hname, next_fst]

end MakesParts

theorem LoweringState.owner_declareDefault (s : LoweringState) (x : String) (d : Domain)
    (r : Registry) : owner ⟨s.scope.declareDefault x d, r⟩ = s.owner := by
  obtain ⟨domains, hd⟩ := s.scope.declareDefault_eq x d
  rw [hd]
  rfl

theorem LoweringState.owner_enterLoop (s : LoweringState) (index : String) :
    (s.enterLoop index).owner = s.owner :=
  owner_declareDefault s index .integer s.registry

namespace Lowering

theorem assignTargets_parts {statement : Except Fault String} {line : Option Int}
    {operands : List Operand} {ts : List Target} {s s' : LoweringState} {f : Fragment}
    (h : assignTargets statement line operands ts s = .ok (f, s')) :
    MakesParts "__assign__" s f s' := by
  refine assignTargets_induction (motive := MakesParts _) h (fun s => .nil rfl) .append ?_
  intro t _ s s' f h
  obtain ⟨payload, rfl, h | h⟩ := assignTarget_eq_ok h
  · obtain ⟨l, -, -, rfl⟩ := h
    exact .single rfl (owner_declareDefault ..)
  · obtain ⟨body, -, -, rfl⟩ := h
    exact .single rfl rfl

theorem assign_parts {targets : List Expr} {value : Expr} {line : Option Int}
    {s s' : LoweringState} {f : Fragment} (h : assign targets value line s = .ok (f, s')) :
    MakesParts "__assign__" s f s' := by
  obtain ⟨operands, v, written, v', -, -, hf⟩ := assign_eq_ok h
  have hparts := assignTargets_parts hf
  exact ⟨hparts.owner, hparts.names⟩

theorem annAssign_parts {target typeExpr : Expr} {value : Option Expr} {line : Option Int}
    {s s' : LoweringState} {f : Fragment} (h : annAssign target typeExpr value line s = .ok (f, s')) :
    MakesParts "__assign__" s f s' := by
  obtain ⟨x, d, -, ⟨-, rfl, rfl⟩ | h⟩ := annAssign_eq_ok h
  · exact .nil rfl
  · obtain ⟨e, operands, v, written, v', -, -, -, hf⟩ := h
    have hparts := assignTargets_parts hf
    exact ⟨hparts.owner, hparts.names⟩

theorem condition_parts {test : Expr} {line : Option Int} {s s' : LoweringState} {f : Fragment}
    {output : Reference} (h : condition test line s = .ok ((f, output), s')) :
    MakesParts "__condition__" s f s' := by
  obtain ⟨operands, v, text, -, -, rfl, rfl, rfl⟩ := condition_eq_ok h
  exact .single rfl rfl

theorem mergeVariables_parts {test : Reference} {start thenExit elseExit : Table Int}
    {names : List String} {s s' : LoweringState} {f : Fragment}
    (h : mergeVariables test start thenExit elseExit names s = .ok (f, s')) :
    MakesParts "__decision__" s f s' := by
  refine mergeVariables_induction (motive := MakesParts _) h (fun s => .nil rfl) .append ?_
  intro x _ s s' f h
  rcases mergeVariable_eq_ok h with ⟨-, rfl, rfl⟩ | ⟨-, -, rfl, rfl⟩ | ⟨-, a, b, -, rfl, rfl⟩
  · exact .nil rfl
  · refine .nil ?_
    split <;> rfl
  · exact .single rfl rfl

theorem parameters_owner {parameters : List Parameter} {line : Option Int}
    {s s' : LoweringState} (h : parameters.forM (parameter line) s = .ok ((), s')) :
    s'.owner = s.owner := by
  refine parameters_induction (motive := fun t => t.owner = s.owner) h rfl ?_
  exact fun _ _ _ _ ht => ht

end Lowering

/-- A block is lowered in one function from its start to its end. -/
theorem Lowers.owner {block : List Stmt} {s s' : LoweringState} {L : Layout}
    (h : Lowers block s L s') : s'.owner = s.owner := by
  induction h with
  | nil => rfl
  | assign hmade _ ih => exact ih.trans (assign_parts hmade).owner
  | annAssign hmade _ ih => exact ih.trans (annAssign_parts hmade).owner
  | effect hmade _ ih =>
    obtain ⟨callee, input, v, -, rfl⟩ := effect_eq_call hmade
    exact ih
  | branch htest _ _ hmerge _ ihT ihE ih =>
    have ht := (condition_parts htest).owner
    have hm := (mergeVariables_parts hmerge).owner
    exact ih.trans (hm.trans (ihE.trans (ihT.trans ht)))
  | loop _ _ _ _ _ ihB ih => exact ih.trans (ihB.trans (owner_enterLoop ..))
  | definition _ _ _ _ _ _ _ ih => exact ih

/-- A function that is no container is named after one of the functions around it. -/
def Graph.Function.PartOf (owners : List String) (f : Function) : Prop :=
  f.isContainer = false → ∃ owner ∈ owners, ∃ role ∈ roles, IsPartName role owner f.name

theorem Graph.Function.partOf_container {owners : List String} {name : String}
    {input vars : List Declaration} {body : List Record} :
    (Function.container name input vars body).PartOf owners := by
  intro h
  cases h

theorem MakesParts.partOf {role : String} {s s' : LoweringState} {F : Fragment}
    (h : MakesParts role s F s') (hrole : role ∈ roles) {owners : List String}
    (howner : s.owner ∈ owners) : ∀ f ∈ F.functions, f.PartOf owners :=
  fun f hf _ => ⟨s.owner, howner, role, hrole, h.names f hf⟩

/-- The parts that a layout makes belong to the function that it is made in, or to one that its
block defines. -/
theorem Lowers.partOf {block : List Stmt} {s s' : LoweringState} {L : Layout}
    (h : Lowers block s L s') {owners : List String} (howner : s.owner ∈ owners)
    (hdefined : ∀ k ∈ Stmt.signaturesIn block, k.1 ∈ owners) :
    ∀ f ∈ L.functions, f.PartOf owners := by
  induction h with
  | nil => exact List.forall_mem_nil _
  | assign hmade _ ih =>
    have hmade := assign_parts hmade
    exact List.forall_mem_append.mpr
      ⟨hmade.partOf (by decide) howner, ih (hmade.owner ▸ howner) hdefined⟩
  | annAssign hmade _ ih =>
    have hmade := annAssign_parts hmade
    exact List.forall_mem_append.mpr
      ⟨hmade.partOf (by decide) howner, ih (hmade.owner ▸ howner) hdefined⟩
  | effect hmade _ ih =>
    obtain ⟨callee, input, v, rfl, rfl⟩ := effect_eq_call hmade
    exact ih howner hdefined
  | @branch test body orelse line rest s s₁ s₂ s₃ s₄ s₅ tested condition T E decisions L
      htest hthen helse hmerge _ ihT ihE ih =>
    have htest := condition_parts htest
    have hmerge := mergeVariables_parts hmerge
    have hT : s₁.owner ∈ owners := htest.owner ▸ howner
    have hE : s₂.owner ∈ owners := hthen.owner ▸ hT
    have hM : s₃.owner ∈ owners := helse.owner ▸ hE
    have hR : s₄.owner ∈ owners := hmerge.owner ▸ hM
    simp only [Stmt.signaturesIn, Stmt.signatures, List.forall_mem_append] at hdefined
    change ∀ f ∈ tested.functions ++ T.functions ++ E.functions ++ decisions.functions ++
      L.functions, _
    simp only [List.forall_mem_append]
    exact ⟨⟨⟨⟨htest.partOf (by decide) howner, ihT hT hdefined.1.1⟩, ihE hE hdefined.1.2⟩,
      hmerge.partOf (by decide) hM⟩, ih hR hdefined.2⟩
  | @loop target iter body line rest s s₂ s₃ v index os range B L _ _ _ hbody _ ihB ih =>
    have hB : (s.enterLoop index).owner ∈ owners := (owner_enterLoop s index).symm ▸ howner
    have hR : s₂.owner ∈ owners := hbody.owner ▸ hB
    simp only [Stmt.signaturesIn, Stmt.signatures, List.append_nil, List.forall_mem_append]
      at hdefined
    change ∀ f ∈ B.functions ++ [_] ++ L.functions, _
    simp only [List.forall_mem_append, List.forall_mem_singleton]
    refine ⟨⟨ihB hB hdefined.1, fun _ => ⟨s₂.owner, hR, "__loop_plate__", by decide, ?_⟩⟩,
      ih hR hdefined.2⟩
    exact ⟨index, s₂.registry.count (s₂.plateBase index), rfl⟩
  | @definition name parameters body line rest s s₁ s₂ s₃ r input vars B L
      _ hparameters _ _ _ _ ihB ih =>
    simp only [Stmt.signaturesIn, Stmt.signatures, List.cons_append, List.forall_mem_cons,
      List.forall_mem_append] at hdefined
    have hB : s₁.owner ∈ owners := parameters_owner hparameters ▸ hdefined.1
    change ∀ f ∈ B.functions ++ [_] ++ L.functions, _
    simp only [List.forall_mem_append, List.forall_mem_singleton]
    exact ⟨⟨ihB hB hdefined.2.1, Function.partOf_container⟩, ih howner hdefined.2.2⟩

theorem Lowers.partOf_of_definitions {block : List Stmt} {s s' : LoweringState} {L : Layout}
    (h : Lowers block s L s') (hb : ∀ t ∈ block, t.isDefinition = true) {owners : List String}
    (hdefined : ∀ k ∈ Stmt.signaturesIn block, k.1 ∈ owners) :
    ∀ f ∈ L.functions, f.PartOf owners := by
  induction h with
  | nil => exact List.forall_mem_nil _
  | @definition name parameters body line rest s s₁ s₂ s₃ r input vars B L
      _ hparameters hbody _ _ _ _ ih =>
    simp only [Stmt.signaturesIn, Stmt.signatures, List.cons_append, List.forall_mem_cons,
      List.forall_mem_append] at hdefined hb
    have hB : s₁.owner ∈ owners := parameters_owner hparameters ▸ hdefined.1
    change ∀ f ∈ B.functions ++ [_] ++ L.functions, _
    simp only [List.forall_mem_append, List.forall_mem_singleton]
    exact ⟨⟨hbody.partOf hB hdefined.2.1, Function.partOf_container⟩, ih hb.2 hdefined.2.2⟩
  | _ => cases hb _ List.mem_cons_self

/-- Containers have distinct names and so have all other functions; no two functions share a name
if no definition is named like a part of a definition. -/
theorem Outcome.names_unique {ms : List Module} {name date : String} {lowered : Lowered}
    (h : (Outcome.ofModules ms name date).result = .ok lowered) :
    ((lowered.document.functions.filter (·.isContainer)).map Function.name).Nodup ∧
      ((lowered.document.functions.filter (!·.isContainer)).map Function.name).Nodup ∧
      ((∀ k ∈ Stmt.signaturesIn (Module.definitions ms),
          ∀ l ∈ Stmt.signaturesIn (Module.definitions ms), ∀ role ∈ roles,
            ¬IsPartName role k.1 l.1) →
        (lowered.document.functions.map Function.name).Nodup) := by
  obtain ⟨L, r, hL⟩ := Outcome.laidOut_of_ok h
  have hnamed := hL.lowers.named
  rw [hL.functions]
  refine ⟨hnamed.claimed.nodup, hnamed.generated.nodup, fun hfree => ?_⟩
  refine hnamed.nodup_of_ne fun f hf g hg hfc hgc hname => ?_
  obtain ⟨l, hl, hlname⟩ := hL.lowers.definedBy f hf hfc
  have hpart := hL.lowers.partOf_of_definitions (fun t ht => (List.mem_filter.mp ht).2)
    (fun k hk => List.mem_map.mpr ⟨k, hk, rfl⟩) g hg hgc
  obtain ⟨owner, howner, role, hrole, hpart⟩ := hpart
  obtain ⟨k, hk, rfl⟩ := List.mem_map.mp howner
  exact hfree k hk l hl role hrole (by rwa [hlname, hname])

/-- Two functions, each with one assignment to `x`. -/
def Module.twoFunctions (first second : String) : List Module :=
  let assign : Stmt := .annAssign (.name "x" .store none) (.name "bool" .load none)
    (some (.constant ⟨.boolean, .bool true⟩ none)) none
  [⟨[.functionDef first [] [assign] none, .functionDef second [] [assign] none]⟩]

theorem Outcome.names_unique_sample :
    let ms := Module.twoFunctions "f" "g__assign__x_0"
    ∃ lowered, (Outcome.ofModules ms "m" "2020-01-01").result = .ok lowered ∧
      (lowered.document.functions.map Function.name).Nodup := by
  intro ms
  have hok : (Outcome.ofModules ms "m" "2020-01-01").result.toOption.any (fun _ => true) = true := by
    decide +kernel
  have hfree : ∀ k ∈ Stmt.signaturesIn (Module.definitions ms),
      ∀ l ∈ Stmt.signaturesIn (Module.definitions ms), ∀ role ∈ roles,
        ¬k.1.toList ++ role.toList <+: l.1.toList := by decide +kernel
  obtain ⟨lowered, h, -⟩ := except_exists_ok_of_any hok
  refine ⟨lowered, h, (Outcome.names_unique h).2.2 fun k hk l hl role hrole hpart => ?_⟩
  exact hfree k hk l hl role hrole hpart.isPrefix

/-- The function `f__assign__x_0` has the name of the assignment in `f`. -/
theorem Outcome.names_clash :
    ∃ lowered, (Outcome.ofModules (Module.twoFunctions "f" "f__assign__x_0") "m"
        "2020-01-01").result = .ok lowered ∧
      ¬(lowered.document.functions.map Function.name).Nodup := by
  have hclash : (Outcome.ofModules (Module.twoFunctions "f" "f__assign__x_0") "m"
      "2020-01-01").result.toOption.any
        (fun lowered => !decide (lowered.document.functions.map Function.name).Nodup) = true := by
    decide +kernel
  obtain ⟨lowered, h, hnodup⟩ := except_exists_ok_of_any hclash
  exact ⟨lowered, h, by simpa using hnodup⟩

end ProgramGraph
