import ProgramGraph.Proofs.Program
import ProgramGraph.Proofs.Subset.Expressions

/-! Programs that are lowered lie within the subset, at every depth. -/
namespace ProgramGraph

open Lowering

mutual

/-- A statement of the subset, given what may stand as the header of a loop. -/
def Stmt.isSupported (header : Expr → Bool) (s : Stmt) : Bool :=
  match s with
  | .functionDef _ parameters body _ =>
    parameters.all (fun p => p.typeExpr.any Expr.isAnnotation) && areSupported header body
  | .assign targets value _ => targets.all Expr.isTarget && value.isSupported
  | .annAssign target typeExpr value _ =>
    target.isName && typeExpr.isAnnotation && (initialValue? value).all Expr.isSupported
  | .branch test body orelse _ =>
    test.isSupported && areSupported header body && areSupported header orelse
  | .loop target iter body orelse _ =>
    target.isName && iter.isSupported && header iter && orelse.isEmpty && areSupported header body
  | .expr value _ => value.isSupported && value.isEffect
  | .unsupported .. => false

def Stmt.areSupported (header : Expr → Bool) (block : List Stmt) : Bool :=
  match block with
  | [] => true
  | s :: rest => s.isSupported header && areSupported header rest

end

theorem Stmt.areSupported_eq_all (header : Expr → Bool) (block : List Stmt) :
    areSupported header block = block.all (isSupported header) := by
  induction block with
  | nil => rfl
  | cons s rest ih => rw [areSupported, ih, List.all_cons]

namespace Lowering
variable {s s' : LoweringState} {f : Fragment} {line : Option Int}

theorem isTarget_of_mapM {targets : List Expr} {v v' : Versions} {written : List Target}
    (h : targets.mapM Expr.target v = .ok (written, v')) : targets.all Expr.isTarget = true := by
  induction targets generalizing v written with
  | nil => rfl
  | cons e rest ih =>
    rw [List.mapM_cons] at h
    obtain ⟨t, w, ht, h⟩ := bind_eq_ok.mp h
    obtain ⟨ts, w', hts, hpure⟩ := bind_eq_ok.mp h
    obtain ⟨-, rfl⟩ := pure_eq_ok.mp hpure
    simp [Expr.isTarget_of_target ht, ih hts]

theorem annAssign_supported {target typeExpr : Expr} {value : Option Expr}
    (h : annAssign target typeExpr value line s = .ok (f, s')) (header : Expr → Bool) :
    (Stmt.annAssign target typeExpr value line).isSupported header = true := by
  have hannotation : typeExpr.isAnnotation = true := by
    obtain ⟨x, _, -, h⟩ := bind_eq_ok.mp h
    obtain ⟨d, _, hd, -⟩ := bind_eq_ok.mp h
    obtain ⟨hd, -⟩ := ofResult_eq_ok.mp hd
    exact Expr.isAnnotation_of_annotatedDomain hd
  obtain ⟨x, d, ⟨access, own, rfl⟩, hvalue⟩ := annAssign_eq_ok h
  have hinitial : (initialValue? value).all Expr.isSupported = true := by
    rcases hvalue with ⟨hnone, -⟩ | ⟨e, operands, v, -, -, he, ho, -⟩
    · rw [hnone]
      rfl
    · rw [he]
      exact Expr.operands_supported e ho
  simp [Stmt.isSupported, Expr.isName, hannotation, hinitial]

theorem parameters_annotated {parameters : List Parameter}
    (h : parameters.forM (parameter line) s = .ok ((), s')) :
    parameters.all (fun p => p.typeExpr.any Expr.isAnnotation) = true := by
  induction parameters generalizing s with
  | nil => rfl
  | cons p rest ih =>
    obtain ⟨_, s₁, hp, hrest⟩ := bind_eq_ok.mp h
    obtain ⟨d, _, hd, -⟩ := bind_eq_ok.mp hp
    obtain ⟨hd, -⟩ := ofResult_eq_ok.mp hd
    simp [Expr.isAnnotation_of_annotatedDomain hd, ih hrest]

theorem isName_of_loopIndex {target : Expr} {index : String}
    (h : loopIndex target line = .ok index) : target.isName = true := by
  cases target with
  | name => rfl
  | _ => cases h

theorem effect_supported {value : Expr} (h : effect value line s = .ok (f, s')) :
    value.isSupported = true ∧ value.isEffect = true := by
  obtain ⟨func, args, keywords, own, callee, arguments, v, input, rfl, hc, ho, hi, -, -⟩ :=
    effect_eq_ok h
  have hkeywords : keywords.isEmpty = true := by
    obtain ⟨p, _, hp, -⟩ := bind_eq_ok.mp h
    obtain ⟨w, hp, -⟩ := versioning_eq_ok.mp hp
    obtain ⟨_, w', hk, -⟩ := bind_eq_ok.mp hp
    obtain ⟨hk, -⟩ := Versioning.ofResult_eq_ok.mp hk
    exact Expr.isEmpty_of_refuseKeywords hk
  constructor
  · simp [Expr.isSupported, Expr.isQualified_of_callee func hc, hkeywords,
      Expr.operandsOfEach_supported args ho]
  · have hcalls := Expr.not_hasCall_of_effectInputs ho hi
    simpa [Expr.isEffect] using hcalls

end Lowering

/-- Every statement of a block that is lowered lies within the subset. -/
theorem Lowers.supported {block : List Stmt} {s s' : LoweringState} {L : Layout}
    (h : Lowers block s L s') : Stmt.areSupported Expr.amountsToRange block = true := by
  induction h with
  | nil => rfl
  | assign hmade _ ih =>
    obtain ⟨operands, v, written, v', ho, ht, -⟩ := assign_eq_ok hmade
    simp [Stmt.areSupported, Stmt.isSupported, isTarget_of_mapM ht, Expr.operands_supported _ ho, ih]
  | annAssign hmade _ ih => simp [Stmt.areSupported, annAssign_supported hmade, ih]
  | effect hmade _ ih =>
    simp [Stmt.areSupported, Stmt.isSupported, effect_supported hmade, ih]
  | branch htest _ _ _ _ hthen helse hrest =>
    obtain ⟨operands, v, text, ho, -⟩ := condition_eq_ok htest
    simp [Stmt.areSupported, Stmt.isSupported, Expr.operands_supported _ ho, hthen, helse, hrest]
  | loop htarget hiter hrange _ _ hbody hrest =>
    have hname := isName_of_loopIndex htarget
    have hheader := Expr.amountsToRange_of_rangeOf hiter hrange
    simp [Stmt.areSupported, Stmt.isSupported, hname, Expr.operands_supported _ hiter, hheader,
      hbody, hrest]
  | definition _ hparameters _ _ _ _ hbody hrest =>
    simp [Stmt.areSupported, Stmt.isSupported, parameters_annotated hparameters, hbody, hrest]

/-- All definitions of a program that is lowered lie within the subset, with what amounts to a range
as the header of a loop. -/
theorem Outcome.definitions_supported {ms : List Module} {name date : String} {lowered : Lowered}
    (h : (Outcome.ofModules ms name date).result = .ok lowered) :
    ∀ t ∈ Module.definitions ms, t.isSupported Expr.amountsToRange = true := by
  obtain ⟨L, r, hL⟩ := Outcome.laidOut_of_ok h
  have hall := hL.lowers.supported
  rw [Stmt.areSupported_eq_all, List.all_eq_true] at hall
  exact hall

theorem Outcome.definitions_supported_sample :
    (∃ lowered, (Outcome.ofModules Module.sample "m" "2020-01-01").result = .ok lowered) ∧
      ∀ t ∈ Module.definitions Module.sample, t.isSupported Expr.amountsToRange = true := by
  obtain ⟨lowered, h⟩ := Outcome.exists_sample
  exact ⟨⟨lowered, h⟩, Outcome.definitions_supported h⟩

/-- `for i in [range(0, 3)]: show(i)`. -/
def Module.sampleDisplay : List Module :=
  let number (n : Int) : Expr := .constant ⟨.integer, .number (Binary64.round? n).get!⟩ none
  let call (x : String) (args : List Expr) : Expr := .call (.name x .load none) args [] none
  [⟨[.functionDef "f" []
    [.loop (.name "i" .store none) (.list [call "range" [number 0, number 3]] .load none)
      [.expr (call "show" [.name "i" .load none]) none] [] none] none]⟩]

/-- Flattening hides the list around the range from the check of the header. -/
theorem Outcome.display_taken_for_range :
    (∃ lowered, (Outcome.ofModules Module.sampleDisplay "m" "2020-01-01").result = .ok lowered) ∧
      ∃ t ∈ Module.definitions Module.sampleDisplay, t.isSupported Expr.isRange = false := by
  have hok : (Outcome.ofModules Module.sampleDisplay "m" "2020-01-01").result.toOption.any
      (fun _ => true) = true := by decide +kernel
  have hheader : (Module.definitions Module.sampleDisplay).any
      (fun t => !t.isSupported Expr.isRange) = true := by decide +kernel
  obtain ⟨lowered, h, -⟩ := except_exists_ok_of_any hok
  obtain ⟨t, ht, hf⟩ := List.any_eq_true.mp hheader
  exact ⟨⟨lowered, h⟩, t, ht, by simpa using hf⟩

end ProgramGraph
