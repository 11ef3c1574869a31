import ProgramGraph.Proofs.Statements

/-! Layouts of lowered blocks: which part of a graph comes from which statement. -/
namespace ProgramGraph

open ProgramGraph.Graph

/-- What the statements of a block are lowered to, one constructor for each kind of statement. -/
inductive Layout where
  | nil
  /-- A statement without a block of its own. -/
  | simple (s : Stmt) (made : Fragment) (rest : Layout)
  /-- The test and its condition, both branches with the versions at their ends, the decisions. -/
  | branch (test : Expr) (condition : Reference) (tested : Fragment) (thenPart : Layout)
      (thenExit : Versions) (elsePart : Layout) (elseExit : Versions) (decisions : Fragment)
      (rest : Layout)
  /-- The header, the version of the index, and the plate. -/
  | loop (iter : Expr) (index : Reference) (range : Range) (name : String) (inputs : List String)
      (body rest : Layout)
  | definition (name : String) (input vars : List Declaration) (body rest : Layout)

namespace Layout

/-- All that a block is lowered to. -/
def fragment : Layout → Fragment
  | nil => ∅
  | simple _ made rest => made ++ rest.fragment
  | branch _ _ tested thenPart _ elsePart _ decisions rest =>
    tested ++ thenPart.fragment ++ elsePart.fragment ++ decisions ++ rest.fragment
  | loop _ index range name inputs body rest =>
    let inner := body.fragment
    ⟨inner.functions ++ [.loopPlate name inputs index.name range inner.records],
      [.loop name inputs]⟩ ++ rest.fragment
  | definition name input vars body rest =>
    let inner := body.fragment
    ⟨inner.functions ++ [.container name input vars inner.records], []⟩ ++ rest.fragment

/-- The records of the block itself, without those of loop bodies and definitions. -/
def records (L : Layout) : List Record := L.fragment.records

def functions (L : Layout) : List Function := L.fragment.functions

end Layout

open Lowering LoweringState

/-- A block, the state before it, its layout and the state after it. -/
inductive Lowers : List Stmt → LoweringState → Layout → LoweringState → Prop
  | nil {s} : Lowers [] s .nil s
  | assign {targets value line rest s s₁ s₂ made L}
      (hmade : Lowering.assign targets value line s = .ok (made, s₁))
      (hrest : Lowers rest s₁ L s₂) :
      Lowers (.assign targets value line :: rest) s
        (.simple (.assign targets value line) made L) s₂
  | annAssign {target typeExpr value line rest s s₁ s₂ made L}
      (hmade : Lowering.annAssign target typeExpr value line s = .ok (made, s₁))
      (hrest : Lowers rest s₁ L s₂) :
      Lowers (.annAssign target typeExpr value line :: rest) s
        (.simple (.annAssign target typeExpr value line) made L) s₂
  | effect {value line rest s s₁ s₂ made L}
      (hmade : Lowering.effect value line s = .ok (made, s₁))
      (hrest : Lowers rest s₁ L s₂) :
      Lowers (.expr value line :: rest) s (.simple (.expr value line) made L) s₂
  | branch {test body orelse line rest s s₁ s₂ s₃ s₄ s₅ tested condition T E decisions L}
      (htest : Lowering.condition test line s = .ok ((tested, condition), s₁))
      (hthen : Lowers body s₁ T s₂)
      (helse : Lowers orelse (s₂.withLatest s₁.versions.latest) E s₃)
      (hmerge : mergeVariables condition s₁.versions.latest s₂.versions.latest s₃.versions.latest
        (distinct (s₁.versions.latest.keys ++ s₂.versions.latest.keys ++ s₃.versions.latest.keys))
        (s₃.withLatest s₁.versions.latest) = .ok (decisions, s₄))
      (hrest : Lowers rest s₄ L s₅) :
      Lowers (.branch test body orelse line :: rest) s
        (.branch test condition tested T s₂.versions E s₃.versions decisions L) s₅
  | loop {target iter body line rest s s₂ s₃ v index os range B L}
      (htarget : loopIndex target line = .ok index)
      (hiter : iter.operands s.versions = .ok (os, v))
      (hrange : rangeOf line os = .ok range)
      (hbody : Lowers body (s.enterLoop index) B s₂)
      (hrest : Lowers rest
        { s₂.withVersions (v.write index).2 with
          registry := (s₂.registry.next (s₂.plateBase index)).2 } L s₃) :
      Lowers (.loop target iter body [] line :: rest) s
        (.loop iter ⟨index, (v.write index).1⟩ range (s₂.registry.next (s₂.plateBase index)).1
          (s₂.loopInputs index) B L) s₃
  | definition {name parameters body line rest s s₁ s₂ s₃ r input vars B L}
      (hclaim : s.registry.claim? name = some r)
      (hparameters : parameters.forM (parameter line) (enterFunction name r) = .ok ((), s₁))
      (hbody : Lowers body s₁ B s₂)
      (hinput : (parameters.mapM fun p => declaration s₂.scope line p.name) = .ok input)
      (hvars : s₂.versions.latest.keys.mapM (declaration s₂.scope line) = .ok vars)
      (hrest : Lowers rest ⟨s.scope, s₂.registry⟩ L s₃) :
      Lowers (.functionDef name parameters body line :: rest) s
        (.definition name input vars B L) s₃

namespace Fragment

theorem append_assoc (a b c : Fragment) : a ++ b ++ c = a ++ (b ++ c) := by
  change Fragment.mk _ _ = Fragment.mk _ _
  congr 1 <;> exact List.append_assoc _ _ _

theorem append_empty (a : Fragment) : a ++ (∅ : Fragment) = a := by
  change Fragment.mk _ _ = a
  congr 1 <;> exact List.append_nil _

end Fragment

mutual

/-- A statement that is lowered extends the layout of the statements behind it. -/
theorem Stmt.lowers_cons (t : Stmt) {rest : List Stmt} {s s₁ s₂ : LoweringState} {f : Fragment}
    {L : Layout} (h : t.lower s = .ok (f, s₁)) (hrest : Lowers rest s₁ L s₂) :
    ∃ L', Lowers (t :: rest) s L' s₂ ∧ L'.fragment = f ++ L.fragment := by
  cases t with
  | functionDef name parameters body line =>
    obtain ⟨r, s₁, inner, s₂, input, vars, hc, hp, hb, hi, hv, rfl, rfl⟩ :=
      Lowering.functionDef_eq_ok h
    obtain ⟨B, hB, rfl⟩ := Stmt.lowers_of_lowerBlock body hb
    exact ⟨_, .definition hc hp hB hi hv hrest, rfl⟩
  | assign targets value line => exact ⟨_, .assign h hrest, rfl⟩
  | annAssign target typeExpr value line => exact ⟨_, .annAssign h hrest, rfl⟩
  | branch test body orelse line =>
    obtain ⟨tested, condition, s₁, thenPart, s₂, elsePart, s₃, decisions, hc, ht, he, hd, rfl⟩ :=
      Lowering.branch_eq_ok h
    obtain ⟨T, hT, rfl⟩ := Stmt.lowers_of_lowerBlock body ht
    obtain ⟨E, hE, rfl⟩ := Stmt.lowers_of_lowerBlock orelse he
    exact ⟨_, .branch hc hT hE hd hrest, rfl⟩
  | loop target iter body orelse line =>
    obtain ⟨rfl, index, os, v, range, inner, s₂, hi, ho, hr, hb, rfl, rfl⟩ :=
      Lowering.loop_eq_ok h
    obtain ⟨B, hB, rfl⟩ := Stmt.lowers_of_lowerBlock body hb
    exact ⟨_, .loop hi ho hr hB hrest, rfl⟩
  | expr value line => exact ⟨_, .effect h hrest, rfl⟩
  | unsupported nodeType line => cases h

/-- Every block that is lowered has a layout, and is lowered to what the layout holds. -/
theorem Stmt.lowers_of_lowerBlock (block : List Stmt) {s s' : LoweringState} {f : Fragment}
    (h : Stmt.lowerBlock block s = .ok (f, s')) :
    ∃ L, Lowers block s L s' ∧ L.fragment = f := by
  cases block with
  | nil =>
    obtain ⟨rfl, rfl⟩ := pure_eq_ok.mp h
    exact ⟨.nil, .nil, rfl⟩
  | cons t rest =>
    obtain ⟨first, s₁, ht, h⟩ := bind_eq_ok.mp h
    obtain ⟨others, s₂, hr, h⟩ := bind_eq_ok.mp h
    obtain ⟨rfl, rfl⟩ := pure_eq_ok.mp h
    obtain ⟨L, hL, rfl⟩ := Stmt.lowers_of_lowerBlock rest hr
    exact Stmt.lowers_cons t ht hL

end

end ProgramGraph
