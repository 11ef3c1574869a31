import ProgramGraph.Proofs.Spelling.Recovery

/-! Program text determines what it was rendered from: no two expressions share one, and no two
computations of lambdas do. -/
namespace ProgramGraph

/-- What a lambda runs: it evaluates an expression, or it assigns to at least one target. -/
inductive Computation where
  | value (e : Expr)
  | assign (first : Expr) (others : List Expr) (value : Expr)
  | annAssign (target typeExpr : Expr) (value : Option Expr)

namespace Computation

def source : Computation → Except Fault String
  | value e => e.source false
  | assign first others v => Stmt.assignSource (first :: others) v
  | annAssign target typeExpr v => Stmt.annAssignSource target typeExpr v

/-- A computation without lines, accesses and keywords. -/
def bare : Computation → Computation
  | value e => value e.bare
  | assign first others v => assign first.bare (others.map Expr.bare) v.bare
  | annAssign target typeExpr v => annAssign target.bare typeExpr.bare (v.map Expr.bare)

/-- An annotated target, and the expressions that the text has signs of assignment between. -/
def sides : Computation → Option Expr × List Expr
  | value e => (none, [e])
  | assign first others v => (none, first :: (others ++ [v]))
  | annAssign target typeExpr v => (some target, typeExpr :: v.toList)

def IsSpelled (c : Computation) : Prop :=
  ∀ e ∈ c.sides.1.toList ++ c.sides.2, e.All Expr.isSpelled

instance (c : Computation) : Decidable c.IsSpelled := by
  unfold IsSpelled
  infer_instance

theorem sides_injective {c c' : Computation} (h : c.sides = c'.sides) : c = c' := by
  have hvalue : ∀ v v' : Option Expr, v.toList = v'.toList ↔ v = v' := by
    intro v v'
    cases v <;> cases v' <;> simp
  cases c <;> cases c' <;> simp_all [sides]

end Computation

namespace Spelling

/-- A text shows where an expression in front of it ended. -/
theorem ReadsWhole.unique {text text' rest rest' : List Char} {e e' : Expr}
    (h : ReadsWhole text e) (h' : ReadsWhole text' e') (hr : Ends rest) (hr' : Ends rest')
    (heq : text ++ rest = text' ++ rest') : e = e' ∧ rest = rest' := by
  have hread : some (e, rest) = some (e', rest') := by
    rw [← h rest hr, ← h' rest' hr', heq]
  simpa using hread

/-- Texts of expressions with the sign of an assignment between them. -/
inductive Equated : List Expr → List Char → Prop
  | last {text : List Char} {e : Expr} (h : ReadsWhole text e) : Equated [e] text
  | cons {text : List Char} {e : Expr} {es : List Expr} {cs : List Char} (h : ReadsWhole text e)
      (hrest : Equated es cs) : Equated (e :: es) (text ++ ' ' :: '=' :: ' ' :: cs)

namespace Equated
variable {es es' : List Expr} {cs cs' : List Char}

theorem unique (h : Equated es cs) (h' : Equated es' cs) : es = es' := by
  induction h generalizing es' with
  | @last text e he =>
    generalize hcs : text = cs at h'
    cases h' with
    | last he' =>
      obtain ⟨rfl, -⟩ := he.unique he' ends_nil ends_nil (by rw [hcs])
      rfl
    | @cons text' _ _ cs' he' _ =>
      obtain ⟨-, hrest⟩ := he.unique he' ends_nil (ends_assignment cs') (by simpa using hcs)
      cases hrest
  | @cons text e es rest he hes ih =>
    generalize hcs : text ++ ' ' :: '=' :: ' ' :: rest = cs at h'
    cases h' with
    | last he' =>
      obtain ⟨-, hrest⟩ := he.unique he' (ends_assignment rest) ends_nil (by simpa using hcs)
      cases hrest
    | @cons text' e' es' rest' he' hes' =>
      obtain ⟨rfl, hrest⟩ := he.unique he' (ends_assignment rest) (ends_assignment rest') hcs
      cases hrest
      rw [ih hes']

/-- What comes behind the first of the expressions. -/
theorem exists_append (h : Equated es cs) :
    ∃ text rest e, cs = text ++ rest ∧ ReadsWhole text e ∧ Ends rest ∧ rest.head? ≠ some ':' := by
  cases h with
  | @last _ e he => exact ⟨cs, [], e, by simp, he, ends_nil, by simp⟩
  | @cons text e _ rest he _ => exact ⟨text, _, e, rfl, he, ends_assignment rest, by simp⟩

theorem of_intercalate {texts : List String}
    (h : List.Forall₂ (fun e text => ReadsWhole text.toList e) es texts) {first last : String}
    {e v : Expr} (hfirst : ReadsWhole first.toList e) (hlast : ReadsWhole last.toList v) :
    Equated (e :: (es ++ [v])) (" = ".intercalate (first :: texts) ++ " = " ++ last).toList := by
  induction h generalizing first e with
  | nil => simpa using Equated.cons hfirst (.last hlast)
  | cons he _ ih =>
    simpa [String.intercalate_cons_cons] using Equated.cons hfirst (ih he)

end Equated

/-- The text of a computation. -/
inductive Runs : Option Expr × List Expr → List Char → Prop
  | plain {es : List Expr} {cs : List Char} (h : Equated es cs) : Runs (none, es) cs
  | annotated {text : List Char} {target : Expr} {es : List Expr} {cs : List Char}
      (h : ReadsWhole text target) (hrest : Equated es cs) :
      Runs (some target, es) (text ++ ':' :: ' ' :: cs)

theorem ends_colon (cs : List Char) : Ends (':' :: cs) := ends_cons (by decide)

/-- Only an annotated target has a colon behind it. -/
theorem Equated.ne_annotated {es : List Expr} {text cs : List Char} {target : Expr}
    (h : Equated es (text ++ ':' :: ' ' :: cs)) (htarget : ReadsWhole text target) : False := by
  obtain ⟨text', rest, e, heq, he, hrest, hcolon⟩ := h.exists_append
  obtain ⟨-, rfl⟩ := htarget.unique he (ends_colon _) hrest heq
  exact hcolon rfl

theorem Runs.unique {p p' : Option Expr × List Expr} {cs : List Char} (h : Runs p cs)
    (h' : Runs p' cs) : p = p' := by
  cases h with
  | plain h =>
    generalize hcs : cs = cs' at h'
    cases h' with
    | plain h' =>
      subst hcs
      rw [h.unique h']
    | annotated htarget _ =>
      subst hcs
      exact (h.ne_annotated htarget).elim
  | @annotated text target es rest htarget h =>
    generalize hcs : text ++ ':' :: ' ' :: rest = cs' at h'
    cases h' with
    | plain h' =>
      subst hcs
      exact (h'.ne_annotated htarget).elim
    | @annotated text' target' es' rest' htarget' h' =>
      obtain ⟨rfl, hrest⟩ := htarget.unique htarget' (ends_colon _) (ends_colon _) hcs
      cases hrest
      rw [h.unique h']

/-- The text of a computation shows its sides. -/
theorem exists_runs {c : Computation} (h : c.IsSpelled) :
    ∃ text, c.source = .ok text ∧ Runs c.bare.sides text.toList := by
  cases c with
  | value e =>
    obtain ⟨text, hsource, hreads⟩ := (recovers e (h e (by simp [Computation.sides]))).whole
    exact ⟨text, hsource, .plain (.last hreads)⟩
  | assign first others v =>
    obtain ⟨text, hsource, hreads⟩ :=
      (recovers first (h first (by simp [Computation.sides]))).whole
    obtain ⟨last, hlast, hreads'⟩ := (recovers v (h v (by simp [Computation.sides]))).whole
    have hothers : ∀ e ∈ others, e.All Expr.isSpelled := by
      intro e he
      exact h e (by simp [Computation.sides, he])
    obtain ⟨texts, hsources, hall⟩ :=
      forall₂_sources fun e he => (recoversOfEach others hothers e he).whole
    refine ⟨_, ?_, .plain (.of_intercalate hall hreads hreads')⟩
    simp only [Computation.source, Stmt.assignSource, Expr.sources, hsource, hsources, hlast]
    rfl
  | annAssign target typeExpr v =>
    obtain ⟨text, hsource, hreads⟩ :=
      (recovers target (h target (by simp [Computation.sides]))).whole
    obtain ⟨type, htype, hreads'⟩ :=
      (recovers typeExpr (h typeExpr (by simp [Computation.sides]))).whole
    cases v with
    | none =>
      refine ⟨text ++ ": " ++ type, ?_, ?_⟩
      · simp only [Computation.source, Stmt.annAssignSource, hsource, htype]
        rfl
      · simpa [Computation.bare, Computation.sides] using Runs.annotated hreads (.last hreads')
    | some v =>
      obtain ⟨last, hlast, hreads''⟩ := (recovers v (h v (by simp [Computation.sides]))).whole
      refine ⟨text ++ ": " ++ type ++ " = " ++ last, ?_, ?_⟩
      · simp only [Computation.source, Stmt.annAssignSource, hsource, htype, hlast]
        rfl
      · simpa [Computation.bare, Computation.sides] using
          Runs.annotated hreads (.cons hreads' (.last hreads''))

theorem exists_readsWhole {e : Expr} (h : e.All Expr.isSpelled) (nested : Bool) :
    ∃ text, e.source nested = .ok text ∧ ReadsWhole text.toList e.bare := by
  have hrecovers := recovers e h
  cases nested with
  | false => exact hrecovers.whole
  | true =>
    obtain ⟨text, hsource, hreads⟩ := hrecovers.operand
    exact ⟨text, hsource, hreads.readsWhole⟩

end Spelling

open Spelling

/-- Rendering is unambiguous: what can be spelled has a text, two expressions with the same text are
the same up to lines, accesses and keywords, and so are two computations of lambdas. -/
theorem rendering_unambiguous :
    (∀ e e' : Expr, e.All Expr.isSpelled → e'.All Expr.isSpelled → ∀ nested,
      ∃ text text', e.source nested = .ok text ∧ e'.source nested = .ok text' ∧
        (text = text' → e.bare = e'.bare)) ∧
    ∀ c c' : Computation, c.IsSpelled → c'.IsSpelled →
      ∃ text text', c.source = .ok text ∧ c'.source = .ok text' ∧
        (text = text' → c.bare = c'.bare) := by
  constructor
  · intro e e' he he' nested
    obtain ⟨text, hsource, hreads⟩ := exists_readsWhole he nested
    obtain ⟨text', hsource', hreads'⟩ := exists_readsWhole he' nested
    refine ⟨text, text', hsource, hsource', ?_⟩
    rintro rfl
    exact (hreads.unique hreads' ends_nil ends_nil rfl).1
  · intro c c' hc hc'
    obtain ⟨text, hsource, hruns⟩ := exists_runs hc
    obtain ⟨text', hsource', hruns'⟩ := exists_runs hc'
    refine ⟨text, text', hsource, hsource', ?_⟩
    rintro rfl
    exact Computation.sides_injective (hruns.unique hruns')

/-- A comparison chain with a quoted comma and a tuple of one item, assigned and read. -/
def Computation.sample (line : Option Int) (access : Access) (keywords : List String) :
    Computation :=
  let x : Expr := .name "x" access line
  let text : Expr := .constant ⟨.string, .string ", \""⟩ line
  let flag : Expr := .constant ⟨.boolean, .bool true⟩ line
  .assign (.subscript x text access line) [.member x "y" access line]
    (.compare (.unary .neg x line) [.lt, .eq]
      [.call x [text, .tuple [x] access line] keywords line, .boolean .and [x, flag] line] line)

theorem rendering_unambiguous_sample :
    (Computation.sample (some 1) .store ["k"]).source = .ok
      "x[\", \\\"\"] = x.y = (-x) < x(\", \\\"\", (x,)) == (x and True)" ∧
    (Computation.sample (some 1) .store ["k"]).bare = (Computation.sample none .load []).bare ∧
    (Expr.name "x" .store (some 1)).bare = (Expr.name "x" .load none).bare := by
  refine ⟨by rfl, ?_, ?_⟩
  · obtain ⟨text, text', h, h', heq⟩ := rendering_unambiguous.2
      (Computation.sample (some 1) .store ["k"]) (Computation.sample none .load [])
      (by decide) (by decide)
    exact heq (Except.ok.inj (h.symm.trans h'))
  · obtain ⟨text, text', h, h', heq⟩ := rendering_unambiguous.1 (.name "x" .store (some 1))
      (.name "x" .load none) (by decide) (by decide) false
    exact heq (Except.ok.inj (h.symm.trans h'))

end ProgramGraph
