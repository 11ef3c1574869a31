import ProgramGraph.Proofs.Program
import ProgramGraph.Proofs.Reading.Nodes

/-! Function definitions of data trees: those with positional parameters only are all in the
document; of others the log tells. -/
namespace ProgramGraph

open ProgramGraph.Graph Shape

/-- Nodes at top level: in the body of a module, or in the body of an `If` that stands there. -/
inductive Json.AtTop (js : List Json) : Json → Prop
  | body {j t : Json} (hj : j ∈ js) (ht : t ∈ j.items "body") : AtTop js t
  | guard {t u : Json} (ht : AtTop js t) (htype : t.nodeType? = some "If")
      (hu : u ∈ t.items "body") : AtTop js u

/-- Whether the parameters of a definition are not all positional ones that take one argument. -/
def Json.takesOthers (arguments : Json) : Bool :=
  arguments.has "vararg" || arguments.has "kwarg" ||
    !(arguments.items "posonlyargs").isEmpty || !(arguments.items "kwonlyargs").isEmpty

namespace Reading

theorem count_items {j : Json} {place : Place} {key : String} {n : Option Nat}
    (h : field j place key (Shape.optional count) = .ok n) : n.getD 0 = (j.items key).length := by
  have h := settle_eq_ok h
  unfold Shape.optional at h
  split at h
  · rename_i hnone
    obtain rfl := Checked.ok.inj h
    rw [Json.items, hnone]
    rfl
  · obtain ⟨m, hm, rfl⟩ := Checked.map_eq_ok h
    unfold count at hm
    split at hm
    · rename_i items hitems
      obtain rfl := Checked.ok.inj hm
      rw [Json.items, hitems]
      rfl
    · cases hm

theorem isNone_plainParameters {j : Json} {place : Place} {ps : Option (List (Part j))}
    (h : plainParameters j place = .ok ps) : ps.isNone = j.takesOthers := by
  obtain ⟨_, -, h⟩ := except_bind_eq_ok.mp h
  obtain ⟨args, -, h⟩ := except_bind_eq_ok.mp h
  obtain ⟨positionOnly, hposition, h⟩ := except_bind_eq_ok.mp h
  obtain ⟨keywordOnly, hkeyword, h⟩ := except_bind_eq_ok.mp h
  dsimp only at h
  rw [count_items hposition, count_items hkeyword, isSome_present?, isSome_present?] at h
  have hlengths : decide (0 < (j.items "posonlyargs").length + (j.items "kwonlyargs").length) =
      (!(j.items "posonlyargs").isEmpty || !(j.items "kwonlyargs").isEmpty) := by
    cases j.items "posonlyargs" <;> cases j.items "kwonlyargs" <;> simp
  rw [hlengths, ← Bool.or_assoc] at h
  change (if j.takesOthers = true then _ else _) = _ at h
  split at h
  · rename_i hothers
    obtain rfl := except_pure_eq_ok.mp h
    exact hothers.symm
  · rename_i hothers
    obtain rfl := except_pure_eq_ok.mp h
    simpa using hothers

/-- A definition is read as one if its parameters are plain, and else as a leaf with its name. -/
theorem readStmt_functionDef {j : Json} {place : Place} {s : Stmt} (h : readStmt j place = .ok s)
    (htype : j.nodeType? = some "FunctionDef") :
    ∃ name arguments, j.member? "name" = some (.string name) ∧ j.member? "args" = some arguments ∧
      if arguments.takesOthers then
        ∃ line, s = .unsupported ("FunctionDef(" ++ name ++ ": non-positional parameters)") line
      else ∃ parameters body line, s = .functionDef name parameters body line := by
  rw [readStmt] at h
  obtain ⟨header, hh, h⟩ := except_bind_eq_ok.mp h
  have hheader : header.type = "FunctionDef" :=
    Option.some.inj ((nodeType?_of_header hh).symm.trans htype)
  rw [hheader] at h
  obtain ⟨name, hname, h⟩ := except_bind_eq_ok.mp h
  obtain ⟨arguments, harguments, h⟩ := except_bind_eq_ok.mp h
  obtain ⟨body, -, h⟩ := except_bind_eq_ok.mp h
  obtain ⟨plain, hplain, h⟩ := except_bind_eq_ok.mp h
  refine ⟨name, arguments.1, string_of_field hname, required_eq_ok harguments, ?_⟩
  rw [← isNone_plainParameters hplain]
  cases plain with
  | none =>
    obtain rfl := except_pure_eq_ok.mp h
    exact ⟨_, rfl⟩
  | some parameters =>
    obtain ⟨parameters, -, h⟩ := except_bind_eq_ok.mp h
    obtain ⟨block, -, h⟩ := except_bind_eq_ok.mp h
    obtain rfl := except_pure_eq_ok.mp h
    exact ⟨_, _, _, rfl⟩

/-- What stands in the body of an `If` was read into the body of a conditional. -/
theorem readStmt_if {j : Json} {place : Place} {s : Stmt} (h : readStmt j place = .ok s)
    (htype : j.nodeType? = some "If") :
    ∃ test body orelse line, s = .branch test body orelse line ∧
      ∀ u ∈ j.items "body", ∃ t ∈ body, ∃ p, readStmt u p = .ok t := by
  rw [readStmt] at h
  obtain ⟨header, hh, h⟩ := except_bind_eq_ok.mp h
  have hheader : header.type = "If" :=
    Option.some.inj ((nodeType?_of_header hh).symm.trans htype)
  rw [hheader] at h
  obtain ⟨test, -, h⟩ := except_bind_eq_ok.mp h
  obtain ⟨items, hitems, h⟩ := except_bind_eq_ok.mp h
  obtain ⟨orelse, -, h⟩ := except_bind_eq_ok.mp h
  obtain ⟨test, -, h⟩ := except_bind_eq_ok.mp h
  obtain ⟨body, hbody, h⟩ := except_bind_eq_ok.mp h
  obtain ⟨orelse, -, h⟩ := except_bind_eq_ok.mp h
  obtain rfl := except_pure_eq_ok.mp h
  refine ⟨_, _, _, _, rfl, fun u hu => ?_⟩
  rw [items_of_list hitems] at hu
  obtain ⟨part, hpart, rfl⟩ := List.mem_map.mp hu
  exact exists_of_each hbody hpart

theorem readModule_body {j : Json} {place : Place} {m : Module} (h : readModule j place = .ok m) :
    ∀ t ∈ j.items "body", ∃ s ∈ m.body, ∃ p, readStmt t p = .ok s := by
  obtain ⟨header, -, h⟩ := except_bind_eq_ok.mp h
  dsimp only at h
  split at h
  · cases h
  · obtain ⟨items, hitems, h⟩ := except_bind_eq_ok.mp h
    obtain ⟨body, hbody, h⟩ := except_bind_eq_ok.mp h
    obtain rfl := except_pure_eq_ok.mp h
    intro t ht
    rw [items_of_list hitems] at ht
    obtain ⟨part, hpart, rfl⟩ := List.mem_map.mp ht
    exact exists_of_each hbody hpart

end Reading

theorem Stmt.topLevel_subset {block : List Stmt} {s : Stmt} (hs : s ∈ block) :
    ∀ t ∈ s.topLevel, t ∈ Stmt.topLevelOf block := by
  induction block with
  | nil => cases hs
  | cons first rest ih =>
    intro t ht
    rw [topLevelOf, List.mem_append]
    rcases List.mem_cons.mp hs with rfl | hs
    · exact .inl ht
    · exact .inr (ih hs t ht)

/-- What stands at top level in the data trees was read, and stands at top level still. -/
theorem Json.AtTop.exists_stmt {js : List Json} {place : ProgramGraph.Place} {ms : List Module}
    (hread : js.mapM (Reading.readModule · place) = .ok ms) {t : Json} (ht : AtTop js t) :
    ∃ s p, Reading.readStmt t p = .ok s ∧ ∀ u ∈ s.topLevel, u ∈ Module.topLevel ms := by
  induction ht with
  | body hj ht =>
    obtain ⟨m, hm, hmodule⟩ := exists_of_mapM hread hj
    obtain ⟨s, hs, p, hstmt⟩ := Reading.readModule_body hmodule _ ht
    refine ⟨s, p, hstmt, fun u hu => ?_⟩
    exact List.mem_flatMap.mpr ⟨m, hm, Stmt.topLevel_subset hs u hu⟩
  | guard _ htype hu ih =>
    obtain ⟨s, p, hs, htop⟩ := ih
    obtain ⟨test, body, orelse, line, rfl, hbody⟩ := Reading.readStmt_if hs htype
    obtain ⟨t, ht, q, hq⟩ := hbody _ hu
    exact ⟨t, q, hq, fun v hv => htop v (Stmt.topLevel_subset ht v hv)⟩

/-- Whether a container of a name is among functions. -/
def Graph.HasContainer (fs : List Function) (name : String) : Prop :=
  ∃ f ∈ fs, f.isContainer = true ∧ f.name = name

namespace Graph.HasContainer
variable {fs gs : List Function} {name : String}

theorem append_left (h : HasContainer fs name) : HasContainer (fs ++ gs) name := by
  obtain ⟨f, hf, hcontainer⟩ := h
  exact ⟨f, List.mem_append_left gs hf, hcontainer⟩

theorem append_right (h : HasContainer gs name) : HasContainer (fs ++ gs) name := by
  obtain ⟨f, hf, hcontainer⟩ := h
  exact ⟨f, List.mem_append_right fs hf, hcontainer⟩

end Graph.HasContainer

/-- Every definition in a block that is lowered, at any depth, has a container of its name. -/
theorem Lowers.hasContainer {block : List Stmt} {s s' : LoweringState} {L : Layout}
    (h : Lowers block s L s') {k : String × List Parameter} (hk : k ∈ Stmt.signaturesIn block) :
    HasContainer L.functions k.1 := by
  induction h with
  | nil => cases hk
  | assign _ _ ih => exact (ih hk).append_right
  | annAssign _ _ ih => exact (ih hk).append_right
  | effect _ _ ih => exact (ih hk).append_right
  | @branch test body orelse line rest s s₁ s₂ s₃ s₄ s₅ tested condition T E decisions L
      _ _ _ _ _ ihT ihE ih =>
    change HasContainer (tested.functions ++ T.functions ++ E.functions ++ decisions.functions ++
      L.functions) k.1
    rw [Stmt.signaturesIn, Stmt.signatures, List.mem_append, List.mem_append] at hk
    rcases hk with (hk | hk) | hk
    · exact (ihT hk).append_right.append_left.append_left.append_left
    · exact (ihE hk).append_right.append_left.append_left
    · exact (ih hk).append_right
  | @loop target iter body line rest s s₂ s₃ v index os range B L _ _ _ _ _ ihB ih =>
    change HasContainer (B.functions ++ [_] ++ L.functions) k.1
    rw [Stmt.signaturesIn, Stmt.signatures, Stmt.signaturesIn, List.append_nil,
      List.mem_append] at hk
    rcases hk with hk | hk
    · exact (ihB hk).append_left.append_left
    · exact (ih hk).append_right
  | @definition name parameters body line rest s s₁ s₂ s₃ r input vars B L _ _ _ _ _ _ ihB ih =>
    change HasContainer (B.functions ++ [.container name input vars B.records] ++ L.functions) k.1
    rw [Stmt.signaturesIn, Stmt.signatures, List.cons_append, List.mem_cons,
      List.mem_append] at hk
    rcases hk with rfl | hk | hk
    · refine HasContainer.append_left (.append_right ?_)
      exact ⟨_, List.mem_cons_self, rfl, rfl⟩
    · exact (ihB hk).append_left.append_left
    · exact (ih hk).append_right

/-- Definitions at top level have containers in the document. -/
theorem Outcome.hasContainer_of_ok {ms : List Module} {name date : String} {lowered : Lowered}
    (h : (Outcome.ofModules ms name date).result = .ok lowered) {f : String}
    {parameters : List Parameter} {body : List Stmt} {line : Option Int}
    (hf : .functionDef f parameters body line ∈ Module.topLevel ms) :
    HasContainer lowered.document.functions f := by
  obtain ⟨L, r, hL⟩ := Outcome.laidOut_of_ok h
  rw [hL.functions]
  have hmem : .functionDef f parameters body line ∈ Module.definitions ms :=
    List.mem_filter.mpr ⟨hf, rfl⟩
  exact hL.lowers.hasContainer (Stmt.mem_signaturesIn hmem List.mem_cons_self)

namespace Assembly
variable {a a' : Assembly} {t : Stmt} {block : List Stmt}

/-- What was noted stays in the log. -/
theorem log_of_add (h : a.add t = .ok a') : a.log ⊆ a'.log := by
  unfold add at h
  split at h
  · split at h
    · obtain rfl := Except.ok.inj h
      exact List.Subset.refl _
    · cases h
  · obtain ⟨callee, -, h⟩ := except_bind_eq_ok.mp h
    obtain rfl := except_pure_eq_ok.mp h
    unfold recordCall
    split
    · exact List.Subset.refl _
    · exact List.subset_append_left _ _
  · obtain rfl := Except.ok.inj h
    exact List.subset_append_left _ _

theorem log_of_addAll (h : a.addAll block = (a', none)) : a.log ⊆ a'.log := by
  induction block generalizing a with
  | nil =>
    obtain ⟨rfl, -⟩ := Prod.mk.inj h
    exact List.Subset.refl _
  | cons t rest ih =>
    unfold addAll at h
    split at h
    · rename_i a₁ ha
      exact List.Subset.trans (log_of_add ha) (ih h)
    · cases (Prod.mk.inj h).2

/-- A leaf that is left out is noted. -/
theorem noted_of_addAll (h : a.addAll block = (a', none)) {nodeType : String} {line : Option Int}
    (ht : .unsupported nodeType line ∈ block) :
    ∃ place, "Ignoring top-level " ++ nodeType ++ " at line " ++ place ∈ a'.log := by
  induction block generalizing a with
  | nil => cases ht
  | cons t rest ih =>
    unfold addAll at h
    split at h
    · rename_i a₁ ha
      rcases List.mem_cons.mp ht with rfl | ht
      · obtain rfl := Except.ok.inj ha
        exact ⟨_, log_of_addAll h (List.mem_append_right _ List.mem_cons_self)⟩
      · exact ih h ht
    · cases (Prod.mk.inj h).2

end Assembly

theorem Outcome.noted_of_ok {ms : List Module} {name date : String} {lowered : Lowered}
    (h : (Outcome.ofModules ms name date).result = .ok lowered) {nodeType : String}
    {line : Option Int} (ht : .unsupported nodeType line ∈ Module.topLevel ms) :
    ∃ place, "Ignoring top-level " ++ nodeType ++ " at line " ++ place ∈
      (Outcome.ofModules ms name date).log := by
  rw [ofModules_eq] at h ⊢
  split at h
  · cases h
  · rename_i a ha
    obtain ⟨place, hplace⟩ := Assembly.noted_of_addAll ha ht
    exact ⟨place, List.mem_append_left _ hplace⟩

/-- A program that is read and lowered has a container for every definition at top level whose
parameters are plain; one with other parameters is left out, and the log names it. -/
theorem Outcome.definitions_kept {js : List Json} {place : Place} {ms : List Module}
    (hread : js.mapM (Reading.readModule · place) = .ok ms) {name date : String} {lowered : Lowered}
    (h : (Outcome.ofModules ms name date).result = .ok lowered) :
    ∀ t, Json.AtTop js t → t.nodeType? = some "FunctionDef" →
      ∃ f arguments, t.member? "name" = some (.string f) ∧ t.member? "args" = some arguments ∧
        if arguments.takesOthers then
          ∃ line, "Ignoring top-level " ++
            ("FunctionDef(" ++ f ++ ": non-positional parameters)") ++ " at line " ++ line ∈
              (Outcome.ofModules ms name date).log
        else HasContainer lowered.document.functions f := by
  intro t ht htype
  obtain ⟨s, p, hs, htop⟩ := ht.exists_stmt hread
  obtain ⟨f, arguments, hf, harguments, hcases⟩ := Reading.readStmt_functionDef hs htype
  refine ⟨f, arguments, hf, harguments, ?_⟩
  split at hcases
  · obtain ⟨line, rfl⟩ := hcases
    obtain ⟨place, hnoted⟩ := Outcome.noted_of_ok h (htop _ List.mem_cons_self)
    rw [if_pos ‹_›]
    exact ⟨place, hnoted⟩
  · obtain ⟨parameters, body, line, rfl⟩ := hcases
    rw [if_neg ‹_›]
    exact Outcome.hasContainer_of_ok h (htop _ List.mem_cons_self)

/-- A definition of a function without parameters but for the given ones, which calls itself. -/
def Json.sampleDefinition (others : List (String × Json)) : Json :=
  let callee : Json := .object [("_type", .string "Name"), ("id", .string "f")]
  let call : Json := .object [("_type", .string "Call"), ("func", callee), ("args", .array [])]
  let arguments : Json := .object (("args", .array []) :: others)
  .object [("_type", .string "FunctionDef"), ("name", .string "f"), ("args", arguments),
    ("body", .array [.object [("_type", .string "Expr"), ("value", call)]]), ("lineno", .ofInt 2)]

/-- A module with a guard around a statement. -/
def Json.sampleGuard (t : Json) : Json :=
  let test : Json := .object [("_type", .string "Name"), ("id", .string "x")]
  let guard : Json := .object [("_type", .string "If"), ("test", test), ("body", .array [t]),
    ("orelse", .array []), ("lineno", .ofInt 1)]
  .object [("_type", .string "Module"), ("body", .array [guard])]

theorem Json.atTop_sampleGuard (t : Json) : AtTop [sampleGuard t] t :=
  .guard (.body List.mem_cons_self List.mem_cons_self) rfl List.mem_cons_self

theorem Outcome.definitions_kept_sample :
    ∃ ms lowered, [Json.sampleGuard (Json.sampleDefinition [])].mapM
        (Reading.readModule · .top) = .ok ms ∧
      (Outcome.ofModules ms "m" "2020-01-01").result = .ok lowered ∧
      HasContainer lowered.document.functions "f" := by
  have hok : ([Json.sampleGuard (Json.sampleDefinition [])].mapM
      (Reading.readModule · .top)).toOption.any (fun ms =>
        (Outcome.ofModules ms "m" "2020-01-01").result.toOption.any fun _ => true) = true := by
    decide +kernel
  obtain ⟨ms, hms, hok⟩ := except_exists_ok_of_any hok
  obtain ⟨lowered, h, -⟩ := except_exists_ok_of_any hok
  obtain ⟨f, arguments, hf, harguments, hkept⟩ :=
    Outcome.definitions_kept hms h _ (Json.atTop_sampleGuard _) rfl
  obtain rfl : "f" = f := Json.string.inj (Option.some.inj hf)
  obtain rfl := Option.some.inj harguments
  exact ⟨ms, lowered, hms, h, hkept⟩

/-- A definition with a parameter that takes any number of arguments is left out, and the program
is lowered without it. -/
theorem Outcome.variadic_definition_dropped :
    let rest : Json := .object [("_type", .string "arg"), ("arg", .string "rest")]
    let definition := Json.sampleDefinition [("vararg", rest)]
    ∃ ms lowered, [Json.sampleGuard definition].mapM (Reading.readModule · .top) = .ok ms ∧
      (Outcome.ofModules ms "m" "2020-01-01").result = .ok lowered ∧
      Json.AtTop [Json.sampleGuard definition] definition ∧
      definition.nodeType? = some "FunctionDef" ∧ definition.member? "name" = some (.string "f") ∧
      ¬HasContainer lowered.document.functions "f" := by
  intro rest definition
  have hok : ([Json.sampleGuard definition].mapM
      (Reading.readModule · .top)).toOption.any (fun ms =>
        (Outcome.ofModules ms "m" "2020-01-01").result.toOption.any fun lowered =>
          lowered.document.functions.isEmpty) = true := by
    decide +kernel
  obtain ⟨ms, hms, hok⟩ := except_exists_ok_of_any hok
  obtain ⟨lowered, h, hempty⟩ := except_exists_ok_of_any hok
  refine ⟨ms, lowered, hms, h, Json.atTop_sampleGuard _, rfl, rfl, ?_⟩
  rw [List.isEmpty_iff.mp hempty]
  rintro ⟨f, hf, -⟩
  cases hf

end ProgramGraph
