import ProgramGraph.Proofs.Follows.Block
import ProgramGraph.Proofs.TopLevel
import ProgramGraph.Proofs.Unique

/-! Programs that are lowered: the layout of their definitions. -/
namespace ProgramGraph

open ProgramGraph.Graph Lowering

theorem Assembly.recordCall_registry (a : Assembly) (callee : String) :
    (a.recordCall callee).registry = a.registry ∧ (a.recordCall callee).fragment = a.fragment := by
  unfold recordCall
  split <;> exact ⟨rfl, rfl⟩

/-- Statements at top level other than definitions make nothing. -/
theorem Assembly.add_eq_ok {a a' : Assembly} {t : Stmt} (h : a.add t = .ok a')
    (ht : t.isDefinition = false) : a'.registry = a.registry ∧ a'.fragment = a.fragment := by
  unfold add at h
  split at h
  · cases ht
  · obtain ⟨callee, -, h⟩ := except_bind_eq_ok.mp h
    obtain rfl := except_pure_eq_ok.mp h
    exact a.recordCall_registry callee
  · obtain rfl := Except.ok.inj h
    exact ⟨rfl, rfl⟩

/-- What is taken in is the layout of the definitions, lowered one after another at the top. -/
theorem Assembly.lowers_of_addAll {a a' : Assembly} {block : List Stmt}
    (h : a.addAll block = (a', none)) :
    ∃ L, Lowers (block.filter Stmt.isDefinition) ⟨.top, a.registry⟩ L ⟨.top, a'.registry⟩ ∧
      a'.fragment = a.fragment ++ L.fragment := by
  induction block generalizing a with
  | nil =>
    obtain ⟨rfl, -⟩ := Prod.mk.inj h
    exact ⟨.nil, .nil, (Fragment.append_empty _).symm⟩
  | cons t rest ih =>
    unfold addAll at h
    split at h
    · rename_i a₁ ha
      obtain ⟨L, hL, hf⟩ := ih h
      cases t with
      | functionDef name parameters body line =>
        simp only [add] at ha
        split at ha
        · rename_i f s hs
          obtain rfl := Except.ok.inj ha
          have htop : s = ⟨.top, s.registry⟩ := by
            obtain ⟨_, _, _, _, _, _, -, -, -, -, -, rfl, -⟩ := functionDef_eq_ok hs
            rfl
          rw [htop] at hs
          obtain ⟨L', hL', hf'⟩ := Stmt.lowers_cons _ hs hL
          refine ⟨L', hL', ?_⟩
          rw [hf, hf', Fragment.append_assoc]
        · cases ha
      | _ =>
        obtain ⟨hr, hfr⟩ := add_eq_ok ha rfl
        rw [hr] at hL
        rw [hfr] at hf
        exact ⟨L, hL, hf⟩
    · cases (Prod.mk.inj h).2

/-- Definitions put no record into the body that they stand in. -/
theorem Lowers.items_of_definitions {block : List Stmt} {s s' : LoweringState} {L : Layout}
    (h : Lowers block s L s') (hb : ∀ t ∈ block, t.isDefinition = true) : L.items = [] := by
  induction h with
  | nil => rfl
  | definition _ _ _ _ _ _ _ ih => exact ih fun t ht => hb t (List.mem_cons_of_mem _ ht)
  | _ => cases hb _ List.mem_cons_self

/-- A program that is lowered has a layout that its document shows. -/
structure Module.LaidOut (ms : List Module) (d : Document) (L : Layout) (r : Registry) : Prop where
  lowers : Lowers (Module.definitions ms) ⟨.top, .empty⟩ L ⟨.top, r⟩
  functions : d.functions = L.functions
  body : d.body = []

/-- The layout, and the registry at the end, which holds the lambdas. -/
theorem Outcome.layout_of_ok {ms : List Module} {name date : String} {lowered : Lowered}
    (h : (Outcome.ofModules ms name date).result = .ok lowered) :
    ∃ L r, Module.LaidOut ms lowered.document L r ∧ lowered.lambdas = r.sink := by
  rw [ofModules_eq] at h
  split at h
  · cases h
  · rename_i a ha
    obtain rfl := Except.ok.inj h
    obtain ⟨L, hL, hf⟩ := Assembly.lowers_of_addAll ha
    refine ⟨L, a.registry, ⟨hL, congrArg Fragment.functions hf, ?_⟩, rfl⟩
    have hr : a.fragment.records = L.records := congrArg Fragment.records hf
    have hi := hL.items_of_definitions fun t ht => (List.mem_filter.mp ht).2
    change a.fragment.records = []
    rw [hr, ← L.items_record, hi, List.map_nil]

theorem Outcome.laidOut_of_ok {ms : List Module} {name date : String} {lowered : Lowered}
    (h : (Outcome.ofModules ms name date).result = .ok lowered) :
    ∃ L r, Module.LaidOut ms lowered.document L r := by
  obtain ⟨L, r, hL, -⟩ := Outcome.layout_of_ok h
  exact ⟨L, r, hL⟩

/-- A function with a conditional and a loop around another one, and a call of it. -/
def Module.sample : List Module :=
  let read (x : String) : Expr := .name x .load none
  let write (x : String) : Expr := .name x .store none
  [⟨[.functionDef "f" [⟨"a", some (read "int"), none⟩]
      [.annAssign (write "b") (read "int") (some (read "a")) none,
        .branch (read "a") [.assign [write "b"] (read "b") none] [] none,
        .loop (write "i") (.call (read "range") [read "a", read "b"] [] none)
          [.branch (read "i") [.assign [write "b"] (read "i") none] [] none] [] none] none,
    .expr (.call (read "f") [] [] none) none]⟩]

theorem Outcome.exists_sample :
    ∃ lowered, (Outcome.ofModules Module.sample "m" "2020-01-01").result = .ok lowered := by
  have hok : (Outcome.ofModules Module.sample "m" "2020-01-01").result.toOption.any
      (fun _ => true) = true := by decide +kernel
  obtain ⟨lowered, h, -⟩ := except_exists_ok_of_any hok
  exact ⟨lowered, h⟩

namespace Module.LaidOut
variable {ms : List Module} {d : Document} {L B : Layout} {r : Registry} {f : Function}

/-- The bodies of a document are those of its layout. -/
theorem body_cases (hd : Module.LaidOut ms d L r) (hf : f ∈ d.functions) :
    f.body = [] ∨ ∃ B, (f, B) ∈ L.bodies := by
  rw [hd.functions] at hf
  refine (hd.lowers.mem_functions hf).imp_left fun ⟨x, hx⟩ => ?_
  cases f with
  | assign => rfl
  | decision => rfl
  | container => cases hx
  | loopPlate => cases hx

theorem exists_body (hd : Module.LaidOut ms d L r) (hf : f ∈ d.functions)
    (hc : f.isContainer = true) : ∃ B, (f, B) ∈ L.bodies := by
  rw [hd.functions] at hf
  refine (hd.lowers.mem_functions hf).resolve_left fun ⟨x, hx⟩ => ?_
  cases f with
  | container => cases hx
  | _ => cases hc

/-- Each body is laid out in a scope of its own. -/
theorem opens (hd : Module.LaidOut ms d L r) (hl : Stmt.OnlyLoads (Module.definitions ms))
    (hn : Stmt.SparesConditions (Module.definitions ms)) (hB : (f, B) ∈ L.bodies) :
    Layout.Opens f B :=
  (hd.lowers.unfolds (.of_loads hl hn) ⟨nofun, nofun⟩ fun _ => False).opens hB

end Module.LaidOut

end ProgramGraph
