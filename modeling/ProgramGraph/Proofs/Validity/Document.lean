import ProgramGraph.Proofs.Validity.Blocks
import ProgramGraph.Proofs.Validity.Closure
import ProgramGraph.Proofs.Validity.Reading

/-! Documents that programs are lowered to are valid. -/
namespace ProgramGraph

open ProgramGraph.Graph Lowering LoweringState

/-- The function that a statement calls for its effect. -/
def Stmt.callee? : Stmt → Option String
  | .expr (.call func _ _ _) line => (func.callee line).toOption
  | _ => none

theorem Assembly.start_recordCall (a : Assembly) (callee : String) :
    (a.recordCall callee).start = a.start ∨ (a.recordCall callee).start = some callee := by
  unfold recordCall
  split
  · exact .inr rfl
  · exact .inl rfl

/-- The start is that of before, or a call at top level. -/
theorem Assembly.start_of_addAll {a a' : Assembly} {block : List Stmt}
    (h : a.addAll block = (a', none)) :
    a'.start = a.start ∨ ∃ x ∈ block.filterMap Stmt.callee?, a'.start = some x := by
  induction block generalizing a with
  | nil =>
    obtain ⟨rfl, -⟩ := Prod.mk.inj h
    exact .inl rfl
  | cons t rest ih =>
    unfold addAll at h
    split at h
    · rename_i a₁ ha
      have hfirst : a₁.start = a.start ∨ ∃ x, t.callee? = some x ∧ a₁.start = some x := by
        unfold add at ha
        split at ha
        · split at ha
          · obtain rfl := Except.ok.inj ha
            exact .inl rfl
          · cases ha
        · obtain ⟨callee, hc, ha⟩ := except_bind_eq_ok.mp ha
          obtain rfl := except_pure_eq_ok.mp ha
          refine (a.start_recordCall callee).imp_right fun hs => ⟨callee, ?_, hs⟩
          simp [Stmt.callee?, hc, Except.toOption]
        · obtain rfl := Except.ok.inj ha
          exact .inl rfl
      rcases ih h with hrest | ⟨x, hx, hrest⟩
      · rw [hrest]
        refine hfirst.imp_right fun ⟨x, hx, hs⟩ => ⟨x, ?_, hs⟩
        simp [hx]
      · refine .inr ⟨x, ?_, hrest⟩
        rw [List.filterMap_cons]
        split
        · exact hx
        · exact List.mem_cons_of_mem _ hx
    · cases (Prod.mk.inj h).2

/-- The parts of a document that do not come from definitions. -/
theorem Outcome.header_of_ok {ms : List Module} {name date : String} {lowered : Lowered}
    (h : (Outcome.ofModules ms name date).result = .ok lowered) :
    lowered.document.name = name ∧ lowered.document.dateCreated = date ∧
      (lowered.document.start = "" ∨
        lowered.document.start ∈ (Module.topLevel ms).filterMap Stmt.callee?) := by
  rw [ofModules_eq] at h
  split at h
  · cases h
  · rename_i a ha
    obtain rfl := Except.ok.inj h
    refine ⟨rfl, rfl, ?_⟩
    change a.start.getD "" = "" ∨ a.start.getD "" ∈ _
    rcases Assembly.start_of_addAll ha with hs | ⟨x, hx, hs⟩
    · rw [hs]
      exact .inl rfl
    · rw [hs]
      exact .inr hx

/-- A program is lowered to the document with fewer than `n` writes. -/
def Module.WritesBelow (ms : List Module) (d : Document) (n : Nat) : Prop :=
  ∃ L r, Module.LaidOut ms d L r ∧ L.writeCount < n

/-- A write gives a function of the document, unless it is a store in value position. -/
theorem Lowers.writeCount_le {block : List Stmt} {s s' : LoweringState} {L : Layout}
    (h : Lowers block s L s') :
    L.writeCount ≤ storesIn (Stmt.usesOf block) + L.functions.length := by
  induction h with
  | nil => exact Nat.le_refl _
  | @assign targets value line rest s s₁ s₂ made L _ _ ih
  | @annAssign target typeExpr value line rest s s₁ s₂ made L _ _ ih
  | @effect value line rest s s₁ s₂ made L _ _ ih =>
    change _ ≤ storesIn (Stmt.uses _ ++ Stmt.usesOf rest) +
      (made.functions ++ L.functions).length
    simp only [Layout.writeCount, storesIn_append, List.length_append]
    omega
  | @branch test body orelse line rest s s₁ s₂ s₃ s₄ s₅ tested condition T E decisions L
      _ _ _ _ _ ihT ihE ih =>
    change _ ≤ storesIn (test.uses ++ Stmt.usesOf body ++ Stmt.usesOf orelse ++
      Stmt.usesOf rest) + (tested.functions ++ T.functions ++ E.functions ++
        decisions.functions ++ L.functions).length
    simp only [Layout.writeCount, storesIn_append, List.length_append]
    omega
  | @loop target iter body line rest s s₂ s₃ v index os range B L _ _ _ _ _ ihB ih =>
    change _ ≤ storesIn (iter.uses ++ Stmt.usesOf body ++ Stmt.usesOf rest) +
      (B.functions ++ [_] ++ L.functions).length
    simp only [Layout.writeCount, storesIn_append, List.length_append, List.length_singleton]
    omega
  | @definition name parameters body line rest s s₁ s₂ s₃ r input vars B L _ _ _ _ _ _ ihB ih =>
    change _ ≤ storesIn (Stmt.usesOf body ++ Stmt.usesOf rest) +
      (B.functions ++ [_] ++ L.functions).length
    simp only [Layout.writeCount, storesIn_append, List.length_append, List.length_singleton]
    omega

/-- There are no more writes than functions in the document and stores in value position. -/
theorem Outcome.writesBelow_of_ok {ms : List Module} {name date : String} {lowered : Lowered}
    {n : Nat} (h : (Outcome.ofModules ms name date).result = .ok lowered)
    (hn : storesIn (Stmt.usesOf (Module.definitions ms)) + lowered.document.functions.length < n) :
    Module.WritesBelow ms lowered.document n := by
  obtain ⟨L, r, hd⟩ := Outcome.laidOut_of_ok h
  rw [hd.functions] at hn
  exact ⟨L, r, hd, Nat.lt_of_le_of_lt hd.lowers.writeCount_le hn⟩

/-- All that a document shows can stand in it, if its program can and versions stay safe. -/
theorem Module.LaidOut.document_fits {ms : List Module} {d : Document} {L : Layout} {r : Registry}
    (hd : Module.LaidOut ms d L r) (hname : d.name ≠ "") (hdate : isDate d.dateCreated = true)
    (ha : Stmt.Admissible (Module.definitions ms)) (hw : L.writeCount < 2 ^ 53) : d.Fits := by
  have htop : (⟨.top, .empty⟩ : LoweringState).versions.Within 0 :=
    Versions.within_fresh (by omega)
  obtain ⟨-, hfits⟩ := hd.lowers.fits ha htop (by omega)
  refine ⟨hname, hdate, ?_, ?_⟩
  · rw [hd.functions]
    exact hfits.functions
  · rw [hd.body]
    exact nofun

/-- Nothing is wrong with a document if neither a definition nor the start has the name of a
generated function. -/
theorem Module.LaidOut.document_defects {ms : List Module} {d : Document} {L : Layout}
    {r : Registry} (hd : Module.LaidOut ms d L r)
    (hf : ∀ k ∈ Stmt.signaturesIn (Module.definitions ms), ¬HasRole k.1)
    (hs : ¬HasRole d.start) : d.defects = [] := by
  have hcontainers : ∀ f ∈ L.functions, f.isContainer = true → ¬HasRole f.name := by
    intro f hm hc
    obtain ⟨k, hk, he⟩ := hd.lowers.definedBy f hm hc
    exact he ▸ hf k hk
  refine Document.defects_eq_nil_iff.mpr ⟨?_, ?_, ?_, ?_⟩
  · rw [hd.functions]
    exact hd.lowers.named.nodup hcontainers
  · rw [hd.body]
    exact nofun
  · rw [hd.functions]
    exact hd.lowers.closed.bodies
  · by_cases hfound : ∃ f ∈ d.functions, f.name = d.start
    · obtain ⟨f, hm, he⟩ := hfound
      refine .inr (.inr ⟨f, hm, he, ?_⟩)
      by_contra hc
      have hrole := hd.lowers.named.role f (hd.functions ▸ hm) (by simpa using hc)
      exact hs (he ▸ hrole)
    · push Not at hfound
      exact .inr (.inl hfound)

theorem Graph.validate_toJson {d : Document} (hf : d.Fits) (hd : d.defects = []) :
    Graph.validate d.toJson = ⟨[], d.externals, some d⟩ :=
  validate_of_defects_eq_nil (Document.schema_toJson hf) hd

/-- A program that was read, with names that are not empty, safe integers and fewer than `2 ^ 53`
writes, is lowered to a valid document: it has no problems and is read back as it is. No function
that is defined or called at top level may be named as a generated one. -/
theorem Outcome.validates {ms : List Module} {name date : String} {lowered : Lowered}
    (h : (Outcome.ofModules ms name date).result = .ok lowered)
    (hread : ∀ m ∈ ms, ∃ j place, Reading.readModule j place = .ok m)
    (hname : name ≠ "") (hdate : isDate date = true)
    (hidentifiers : ∀ x ∈ Stmt.identifiersIn (Module.definitions ms), x ≠ "")
    (hliterals : ∀ l ∈ Stmt.literalsIn (Module.definitions ms), l.isSafe = true)
    (hfunctions : ∀ f ∈ Stmt.signaturesIn (Module.definitions ms), ¬HasRole f.1)
    (hcallees : ∀ x ∈ (Module.topLevel ms).filterMap Stmt.callee?, ¬HasRole x)
    (hwrites : Module.WritesBelow ms lowered.document (2 ^ 53)) :
    let verdict := Graph.validate lowered.document.toJson
    verdict.isValid = true ∧ verdict.problems = [] ∧
      verdict.document = some lowered.document := by
  obtain ⟨L, r, hd, hcount⟩ := hwrites
  obtain ⟨hn, ht, hstart⟩ := Outcome.header_of_ok h
  have hadmissible : Stmt.Admissible (Module.definitions ms) :=
    .of_identifiers hidentifiers hliterals (Module.isSafe_of_readModule hread)
  have hfits : lowered.document.Fits :=
    hd.document_fits (hn ▸ hname) (ht ▸ hdate) hadmissible hcount
  have hrole : ¬HasRole lowered.document.start := by
    rcases hstart with hs | hs
    · rw [hs]
      decide
    · exact hcallees _ hs
  rw [Graph.validate_toJson hfits (hd.document_defects hfunctions hrole)]
  exact ⟨rfl, rfl, rfl⟩

/-- A definition with a conditional around a loop, and a call of it, as a data tree. -/
def Module.sampleTree : Json :=
  let node (type : String) (members : List (String × Json)) : Json :=
    .object (("_type", .string type) :: ("lineno", .ofInt 1) :: members)
  let name (id context : String) : Json :=
    node "Name" [("id", .string id), ("ctx", node context [])]
  let number (n : Int) : Json := node "Num" [("n", .ofInt n)]
  let assign (id : String) (value : Json) : Json :=
    node "Assign" [("targets", .array [name id "Store"]), ("value", value)]
  let call (id : String) (args : List Json) : Json :=
    node "Call" [("func", name id "Load"), ("args", .array args)]
  let loop := node "For" [("target", name "i" "Store"),
    ("iter", call "range" [number 0, name "a" "Load"]),
    ("body", .array [assign "b" (name "i" "Load")]), ("orelse", .array [])]
  let branch := node "If" [("test", name "a" "Load"), ("body", .array [loop]),
    ("orelse", .array [assign "b" (number 2)])]
  let parameter := node "arg" [("arg", .string "a"), ("annotation", name "int" "Load")]
  node "Module" [("body", .array [
    node "FunctionDef" [("name", .string "f"), ("args", .object [("args", .array [parameter])]),
      ("body", .array [assign "b" (number 1), branch])],
    node "Expr" [("value", call "f" [])]])]

def Module.sampleRead : Module :=
  match Reading.readModule Module.sampleTree .top with
  | .ok m => m
  | .error _ => ⟨[]⟩

theorem Outcome.validates_sample :
    ∃ lowered, (Outcome.ofModules [Module.sampleRead] "m" "2020-01-01").result = .ok lowered ∧
      let verdict := Graph.validate lowered.document.toJson
      verdict.isValid = true ∧ verdict.problems = [] ∧
        verdict.document = some lowered.document := by
  have hread : Reading.readModule Module.sampleTree .top = .ok Module.sampleRead := by
    have hok : (Reading.readModule Module.sampleTree .top).isOk = true := by decide +kernel
    unfold Module.sampleRead
    cases h : Reading.readModule Module.sampleTree .top with
    | error m => rw [h] at hok; cases hok
    | ok m => rfl
  have hcount : (Outcome.ofModules [Module.sampleRead] "m" "2020-01-01").result.toOption.any
      (fun l => storesIn (Stmt.usesOf (Module.definitions [Module.sampleRead])) +
        l.document.functions.length < 2 ^ 53) = true := by
    decide +kernel
  cases h : (Outcome.ofModules [Module.sampleRead] "m" "2020-01-01").result with
  | error fault => rw [h] at hcount; cases hcount
  | ok lowered =>
    rw [h] at hcount
    have hwrites := Outcome.writesBelow_of_ok h (of_decide_eq_true hcount)
    exact ⟨lowered, rfl, Outcome.validates h
      (List.forall_mem_singleton.mpr ⟨_, _, hread⟩) (by decide) (by decide)
      (by decide +kernel) (by decide +kernel) (by decide +kernel) (by decide +kernel) hwrites⟩

end ProgramGraph
