import ProgramGraph.Proofs.Computation
import ProgramGraph.Proofs.Lines.Statements
import ProgramGraph.Proofs.TopLevel

/-! Programs that differ in nothing but line numbers have the same lambdas and the same graph, but
for the lines that its lambdas refer to, or are refused for the same reason. -/
namespace ProgramGraph

open ProgramGraph.Graph

mutual

theorem Stmt.topLevel_withoutLines (s : Stmt) :
    s.withoutLines.topLevel = s.topLevel.map Stmt.withoutLines := by
  cases s with
  | branch test body orelse line => exact topLevelOf_withoutLines body
  | _ => rfl

theorem Stmt.topLevelOf_withoutLines (block : List Stmt) :
    topLevelOf (withoutLinesOfEach block) = (topLevelOf block).map Stmt.withoutLines := by
  cases block with
  | nil => rfl
  | cons s rest =>
    rw [withoutLinesOfEach, topLevelOf, topLevelOf, List.map_append, topLevel_withoutLines s,
      topLevelOf_withoutLines rest]

end

theorem Module.topLevel_withoutLines (ms : List Module) :
    topLevel (ms.map withoutLines) = (topLevel ms).map Stmt.withoutLines := by
  unfold topLevel
  rw [List.flatMap_map, List.map_flatMap]
  exact congrArg (ms.flatMap ·) (funext fun m => Stmt.topLevelOf_withoutLines m.body)

def Graph.Document.withoutLines (d : Document) : Document :=
  { d with functions := d.functions.map Function.withoutLines }

namespace Assembly

/-- The same but for lines, among them those that the log shows. -/
structure Unlines (a a' : Assembly) : Prop where
  registry : a'.registry = a.registry
  start : a'.start = a.start
  fragment : a'.fragment = a.fragment.withoutLines

variable {a a' : Assembly}

theorem Unlines.recordCall (h : Unlines a a') (callee : String) :
    Unlines (a.recordCall callee) (a'.recordCall callee) := by
  obtain ⟨hregistry, hstart, hfragment⟩ := h
  unfold Assembly.recordCall
  rw [hstart]
  cases a.start with
  | none => exact ⟨hregistry, rfl, hfragment⟩
  | some start => exact ⟨hregistry, hstart, hfragment⟩

/-- Both are taken in, or both are refused for the same reason. -/
inductive UnlinesResult : Except Fault Assembly → Except Fault Assembly → Prop
  | ok {a a' : Assembly} (h : Unlines a a') : UnlinesResult (.ok a) (.ok a')
  | error (f : Fault) : UnlinesResult (.error f) (.error f.withoutLine)

theorem Unlines.add (h : Unlines a a') (s : Stmt) :
    UnlinesResult (a.add s) (a'.add s.withoutLines) := by
  cases s with
  | functionDef name parameters body line =>
    have hlower : (Stmt.functionDef name parameters body line).withoutLines.lower
        ⟨.top, a'.registry⟩ = _ :=
      congrFun (Stmt.lower_withoutLines _) _
    rw [h.registry, Lowering.unlined_apply] at hlower
    unfold Assembly.add
    simp only [Stmt.withoutLines] at hlower ⊢
    rw [h.registry, hlower]
    cases (Stmt.functionDef name parameters body line).lower ⟨.top, a.registry⟩ with
    | error fault => exact .error fault
    | ok p =>
      refine .ok ⟨rfl, h.start, ?_⟩
      change a'.fragment ++ p.1.withoutLines = (a.fragment ++ p.1).withoutLines
      rw [h.fragment, Fragment.withoutLines_append]
  | expr value line =>
    cases value with
    | call func args keywords own =>
      change UnlinesResult (func.callee line >>= fun callee => pure (a.recordCall callee))
        (func.withoutLines.callee none >>= fun callee => pure (a'.recordCall callee))
      rw [Expr.callee_withoutLines func line]
      cases func.callee line with
      | error fault => exact .error fault
      | ok callee => exact .ok (h.recordCall callee)
    | _ => exact .ok ⟨h.registry, h.start, h.fragment⟩
  | _ => exact .ok ⟨h.registry, h.start, h.fragment⟩

/-- Statement by statement, lines change neither what is made nor whether something is refused. -/
theorem Unlines.addAll (h : Unlines a a') (block : List Stmt) :
    Unlines (a.addAll block).1 (a'.addAll (block.map Stmt.withoutLines)).1 ∧
      (a'.addAll (block.map Stmt.withoutLines)).2 =
        (a.addAll block).2.map Fault.withoutLine := by
  induction block generalizing a a' with
  | nil => exact ⟨h, rfl⟩
  | cons s rest ih =>
    have hadd := h.add s
    unfold Assembly.addAll
    rw [List.map_cons]
    dsimp only
    generalize a.add s = r at hadd
    generalize a'.add s.withoutLines = r' at hadd
    cases hadd with
    | ok h => exact ih h
    | error fault => exact ⟨h, rfl⟩

end Assembly

namespace Outcome

/-- A program without lines becomes what the program becomes, without lines. -/
theorem ofModules_withoutLines (ms : List Module) (name date : String) :
    (ofModules (ms.map Module.withoutLines) name date).result =
      (Except.hideLine (ofModules ms name date).result).map fun l =>
        ⟨l.document.withoutLines, l.lambdas⟩ := by
  have hinit : Assembly.Unlines {} {} := ⟨rfl, rfl, rfl⟩
  obtain ⟨h, hfault⟩ := hinit.addAll (Module.topLevel ms)
  rw [ofModules_eq, ofModules_eq, Module.topLevel_withoutLines]
  generalize ({} : Assembly).addAll (Module.topLevel ms) = r at h hfault
  generalize ({} : Assembly).addAll ((Module.topLevel ms).map Stmt.withoutLines) = r' at h hfault
  obtain ⟨a, fault⟩ := r
  obtain ⟨a', fault'⟩ := r'
  obtain ⟨hregistry, hstart, hfragment⟩ := h
  dsimp only at hregistry hstart hfragment hfault
  subst hfault
  cases fault with
  | some fault => rfl
  | none =>
    change Except.ok (Lowered.mk (a'.document name date) a'.registry.sink) =
      .ok ⟨(a.document name date).withoutLines, a.registry.sink⟩
    unfold Assembly.document
    rw [hregistry, hstart, hfragment]
    rfl

/-- Programs that are the same without their lines are lowered to the same lambdas and, but for the
lines that lambdas refer to, the same document; or both are refused, for the same reason. -/
theorem lines_irrelevant {ms ms' : List Module}
    (h : ms.map Module.withoutLines = ms'.map Module.withoutLines) (name date : String) :
    (∃ l l', (ofModules ms name date).result = .ok l ∧ (ofModules ms' name date).result = .ok l' ∧
        l.lambdas = l'.lambdas ∧ l.document.withoutLines = l'.document.withoutLines) ∨
      ∃ f f', (ofModules ms name date).result = .error f ∧
        (ofModules ms' name date).result = .error f' ∧
        f.diagnostic.code = f'.diagnostic.code ∧ f.diagnostic.message = f'.diagnostic.message := by
  have hms := ofModules_withoutLines ms name date
  rw [h, ofModules_withoutLines ms' name date] at hms
  generalize (ofModules ms name date).result = r at hms
  generalize (ofModules ms' name date).result = r' at hms
  cases r with
  | ok l =>
    cases r' with
    | error f' => cases hms
    | ok l' =>
      obtain ⟨hdocument, hlambdas⟩ := Lowered.mk.inj (Except.ok.inj hms)
      exact .inl ⟨l, l', rfl, rfl, hlambdas.symm, hdocument.symm⟩
  | error f =>
    cases r' with
    | ok l' => cases hms
    | error f' =>
      have hfault : f'.withoutLine = f.withoutLine := Except.error.inj hms
      obtain ⟨hcode, hmessage⟩ := f.diagnostic_withoutLine
      obtain ⟨hcode', hmessage'⟩ := f'.diagnostic_withoutLine
      refine .inr ⟨f, f', rfl, rfl, ?_, ?_⟩
      · rw [← hcode, ← hcode', hfault]
      · rw [← hmessage, ← hmessage', hfault]

/-- A function with a lambda and a conditional, and a call of it, on one line or on none. -/
def linedSample (line : Option Int) : List Module :=
  let read (x : String) : Expr := .name x .load line
  let write (x : String) : Expr := .name x .store line
  [⟨[.functionDef "f" [⟨"a", some (read "int"), line⟩]
      [.annAssign (write "b") (read "int") (some (.binary .add (read "a") (read "a") line)) line,
        .branch (read "a") [.assign [write "b"] (read "a") line] [] line] line,
    .expr (.call (read "f") [] [] line) line]⟩]

theorem lines_irrelevant_sample :
    (linedSample (some 7)).map Module.withoutLines = (linedSample none).map Module.withoutLines ∧
      ∃ l l', (ofModules (linedSample (some 7)) "m" "2020-01-01").result = .ok l ∧
        (ofModules (linedSample none) "m" "2020-01-01").result = .ok l' ∧
        l.document ≠ l'.document ∧ l.lambdas = l'.lambdas ∧
        l.document.withoutLines = l'.document.withoutLines := by
  have hlines : (linedSample (some 7)).map Module.withoutLines =
      (linedSample none).map Module.withoutLines := rfl
  have hok : (ofModules (linedSample (some 7)) "m" "2020-01-01").result.toOption.any (fun l =>
      (ofModules (linedSample none) "m" "2020-01-01").result.toOption.any fun l' =>
        l.document ≠ l'.document) = true := by decide +kernel
  obtain ⟨l, hl, hok⟩ := except_exists_ok_of_any hok
  obtain ⟨l', hl', hne⟩ := except_exists_ok_of_any hok
  refine ⟨hlines, l, l', hl, hl', of_decide_eq_true hne, ?_⟩
  rcases lines_irrelevant hlines "m" "2020-01-01" with ⟨k, k', hk, hk', h⟩ | ⟨f, f', hf, -⟩
  · obtain rfl := Except.ok.inj (hl.symm.trans hk)
    obtain rfl := Except.ok.inj (hl'.symm.trans hk')
    exact h
  · rw [hl] at hf
    cases hf

end Outcome
end ProgramGraph
