import ProgramGraph.Proofs.Names
import ProgramGraph.Proofs.Nearest

/-! Programs whose names, constants and lines can stand in a document. -/
namespace ProgramGraph

/-- Whether a literal is a safe integer, if it is one at all. -/
def Literal.isSafe (l : Literal) : Bool :=
  match l.domain, l.value with
  | .integer, .number x => x.toInt?.any Binary64.isSafe
  | .integer, _ => false
  | _, _ => true

mutual

/-- An expression and all expressions in it. -/
def Expr.parts (e : Expr) : List Expr :=
  e :: match e with
    | .constant .. | .name .. | .unsupported .. => []
    | .member value _ _ _ => value.parts
    | .binary _ left right _ => left.parts ++ right.parts
    | .unary _ operand _ => operand.parts
    | .boolean _ values _ => partsOfEach values
    | .compare left _ comparators _ => left.parts ++ partsOfEach comparators
    | .call func args _ _ => func.parts ++ partsOfEach args
    | .subscript value index _ _ => value.parts ++ index.parts
    | .list elements _ _ | .tuple elements _ _ => partsOfEach elements

def Expr.partsOfEach (es : List Expr) : List Expr :=
  match es with
  | [] => []
  | e :: rest => e.parts ++ partsOfEach rest

end

namespace Expr

def identifier? : Expr → Option String
  | name id _ _ => some id
  | _ => none

def literal? : Expr → Option Literal
  | constant l _ => some l
  | _ => none

/-- A name has a character, an integer constant is safe. -/
def isAdmissible : Expr → Bool
  | name id _ _ => id ≠ ""
  | constant l _ => l.isSafe
  | _ => true

end Expr

mutual

/-- The expressions of a statement, those of its blocks among them. Annotations do not count. -/
def Stmt.parts (s : Stmt) : List Expr :=
  match s with
  | .functionDef _ _ body _ => partsIn body
  | .assign targets value _ => Expr.partsOfEach targets ++ value.parts
  | .annAssign target _ value _ => target.parts ++ Expr.partsOfEach value.toList
  | .branch test body orelse _ => test.parts ++ partsIn body ++ partsIn orelse
  | .loop target iter body orelse _ =>
    target.parts ++ iter.parts ++ partsIn body ++ partsIn orelse
  | .expr value _ => value.parts
  | .unsupported .. => []

def Stmt.partsIn (block : List Stmt) : List Expr :=
  match block with
  | [] => []
  | s :: rest => s.parts ++ partsIn rest

end

mutual

/-- Functions defined at any depth, with their parameters. -/
def Stmt.signatures (s : Stmt) : List (String × List Parameter) :=
  match s with
  | .functionDef name parameters body _ => (name, parameters) :: signaturesIn body
  | .branch _ body orelse _ | .loop _ _ body orelse _ => signaturesIn body ++ signaturesIn orelse
  | .assign .. | .annAssign .. | .expr .. | .unsupported .. => []

def Stmt.signaturesIn (block : List Stmt) : List (String × List Parameter) :=
  match block with
  | [] => []
  | s :: rest => s.signatures ++ signaturesIn rest

end

theorem Stmt.mem_signaturesIn {block : List Stmt} {t : Stmt} (ht : t ∈ block)
    {k : String × List Parameter} (hk : k ∈ t.signatures) : k ∈ signaturesIn block := by
  induction block with
  | nil => cases ht
  | cons s rest ih =>
    rw [signaturesIn, List.mem_append]
    rcases List.mem_cons.mp ht with rfl | ht
    · exact .inl hk
    · exact .inr (ih ht)

mutual

/-- Lines of statements, at any depth. -/
def Stmt.lines (s : Stmt) : List Int :=
  s.line.toList ++ match s with
    | .functionDef _ _ body _ => linesIn body
    | .branch _ body orelse _ | .loop _ _ body orelse _ => linesIn body ++ linesIn orelse
    | .assign .. | .annAssign .. | .expr .. | .unsupported .. => []

def Stmt.linesIn (block : List Stmt) : List Int :=
  match block with
  | [] => []
  | s :: rest => s.lines ++ linesIn rest

end

/-- The identifiers of a program: functions, parameters and names in expressions. -/
def Stmt.identifiersIn (block : List Stmt) : List String :=
  (Stmt.signaturesIn block).flatMap (fun f => f.1 :: f.2.map Parameter.name) ++
    (Stmt.partsIn block).filterMap Expr.identifier?

/-- The constants of a program. -/
def Stmt.literalsIn (block : List Stmt) : List Literal :=
  (Stmt.partsIn block).filterMap Expr.literal?

/-- An expression of which every part can stand in a document. -/
def Expr.Admissible (e : Expr) : Prop := ∀ p ∈ e.parts, p.isAdmissible = true

/-- A block of which every part can stand in a document. -/
structure Stmt.Admissible (block : List Stmt) : Prop where
  parts : ∀ p ∈ Stmt.partsIn block, p.isAdmissible = true
  signatures : ∀ f ∈ Stmt.signaturesIn block, f.1 ≠ "" ∧ ∀ p ∈ f.2, p.name ≠ ""
  lines : ∀ n ∈ Stmt.linesIn block, Binary64.isSafe n = true

theorem Stmt.Admissible.of_identifiers {block : List Stmt}
    (hi : ∀ x ∈ Stmt.identifiersIn block, x ≠ "")
    (hl : ∀ l ∈ Stmt.literalsIn block, l.isSafe = true)
    (hn : ∀ n ∈ Stmt.linesIn block, Binary64.isSafe n = true) : Stmt.Admissible block where
  parts p hp := by
    cases p with
    | name id access line =>
      have hid := hi id (List.mem_append_right _ (List.mem_filterMap.mpr ⟨_, hp, rfl⟩))
      simpa [Expr.isAdmissible] using hid
    | constant l line => exact hl l (List.mem_filterMap.mpr ⟨_, hp, rfl⟩)
    | _ => rfl
  signatures f hf := by
    have hnames : ∀ x ∈ f.1 :: f.2.map Parameter.name, x ≠ "" := fun x hx =>
      hi x (List.mem_append_left _ (List.mem_flatMap.mpr ⟨f, hf, hx⟩))
    rw [List.forall_mem_cons, List.forall_mem_map] at hnames
    exact hnames
  lines := hn

namespace Expr

theorem forall_mem_partsOfEach {es : List Expr} :
    (∀ p ∈ partsOfEach es, p.isAdmissible = true) ↔ ∀ e ∈ es, e.Admissible := by
  induction es with
  | nil => exact ⟨nofun, nofun⟩
  | cons e rest ih =>
    rw [List.forall_mem_cons, ← ih]
    exact List.forall_mem_append

namespace Admissible
variable {line : Option Int}

theorem self {e : Expr} (h : e.Admissible) : e.isAdmissible = true := by
  cases e <;> exact h _ List.mem_cons_self

theorem name {id : String} {access : Access} (h : (Expr.name id access line).Admissible) :
    id ≠ "" := by
  simpa [isAdmissible] using h.self

theorem binary {op : BinaryOp} {left right : Expr}
    (h : (Expr.binary op left right line).Admissible) : left.Admissible ∧ right.Admissible :=
  List.forall_mem_append.mp (List.forall_mem_cons.mp h).2

theorem unary {op : UnaryOp} {operand : Expr} (h : (Expr.unary op operand line).Admissible) :
    operand.Admissible :=
  (List.forall_mem_cons.mp h).2

theorem boolean {op : BoolOp} {values : List Expr}
    (h : (Expr.boolean op values line).Admissible) : ∀ e ∈ values, e.Admissible :=
  forall_mem_partsOfEach.mp (List.forall_mem_cons.mp h).2

theorem compare {left : Expr} {ops : List CompareOp} {comparators : List Expr}
    (h : (Expr.compare left ops comparators line).Admissible) :
    left.Admissible ∧ ∀ e ∈ comparators, e.Admissible := by
  obtain ⟨hl, hc⟩ := List.forall_mem_append.mp (List.forall_mem_cons.mp h).2
  exact ⟨hl, forall_mem_partsOfEach.mp hc⟩

theorem call {func : Expr} {args : List Expr} {keywords : List String}
    (h : (Expr.call func args keywords line).Admissible) :
    func.Admissible ∧ ∀ e ∈ args, e.Admissible := by
  obtain ⟨hf, ha⟩ := List.forall_mem_append.mp (List.forall_mem_cons.mp h).2
  exact ⟨hf, forall_mem_partsOfEach.mp ha⟩

theorem subscript {value index : Expr} {access : Access}
    (h : (Expr.subscript value index access line).Admissible) : value.Admissible :=
  (List.forall_mem_append.mp (List.forall_mem_cons.mp h).2).1

theorem list {elements : List Expr} {access : Access}
    (h : (Expr.list elements access line).Admissible) : ∀ e ∈ elements, e.Admissible :=
  forall_mem_partsOfEach.mp (List.forall_mem_cons.mp h).2

theorem tuple {elements : List Expr} {access : Access}
    (h : (Expr.tuple elements access line).Admissible) : ∀ e ∈ elements, e.Admissible :=
  forall_mem_partsOfEach.mp (List.forall_mem_cons.mp h).2

end Admissible

end Expr

namespace Stmt.Admissible
variable {rest : List Stmt} {line : Option Int}

theorem cons {t : Stmt} (h : Admissible (t :: rest)) :
    ((∀ p ∈ t.parts, p.isAdmissible = true) ∧ ∀ n ∈ t.line, Binary64.isSafe n = true) ∧
      Admissible rest := by
  obtain ⟨hp, hp'⟩ := List.forall_mem_append.mp h.parts
  obtain ⟨-, hs'⟩ := List.forall_mem_append.mp h.signatures
  obtain ⟨hl, hl'⟩ := List.forall_mem_append.mp h.lines
  refine ⟨⟨hp, fun n hn => hl n ?_⟩, hp', hs', hl'⟩
  have hline : n ∈ t.line.toList := by simpa using hn
  cases t <;> exact List.mem_append_left _ hline

theorem assign {targets : List Expr} {value : Expr}
    (h : Admissible (.assign targets value line :: rest)) :
    (∀ e ∈ targets, e.Admissible) ∧ value.Admissible ∧ ∀ n ∈ line, Binary64.isSafe n = true := by
  obtain ⟨⟨hp, hline⟩, -⟩ := h.cons
  obtain ⟨ht, hv⟩ := List.forall_mem_append.mp hp
  exact ⟨Expr.forall_mem_partsOfEach.mp ht, hv, hline⟩

theorem annAssign {target typeExpr : Expr} {value : Option Expr}
    (h : Admissible (.annAssign target typeExpr value line :: rest)) :
    target.Admissible ∧ (∀ e ∈ value, e.Admissible) ∧ ∀ n ∈ line, Binary64.isSafe n = true := by
  obtain ⟨⟨hp, hline⟩, -⟩ := h.cons
  obtain ⟨ht, hv⟩ := List.forall_mem_append.mp hp
  exact ⟨ht, by simpa using Expr.forall_mem_partsOfEach.mp hv, hline⟩

theorem branch {test : Expr} {body orelse : List Stmt}
    (h : Admissible (.branch test body orelse line :: rest)) :
    test.Admissible ∧ (∀ n ∈ line, Binary64.isSafe n = true) ∧ Admissible body ∧
      Admissible orelse ∧ Admissible rest := by
  obtain ⟨⟨hp, hline⟩, hrest⟩ := h.cons
  obtain ⟨hp, hpo⟩ := List.forall_mem_append.mp hp
  obtain ⟨hpt, hpb⟩ := List.forall_mem_append.mp hp
  obtain ⟨hsb, hso⟩ := List.forall_mem_append.mp (List.forall_mem_append.mp h.signatures).1
  obtain ⟨-, hl⟩ := List.forall_mem_append.mp (List.forall_mem_append.mp h.lines).1
  obtain ⟨hlb, hlo⟩ := List.forall_mem_append.mp hl
  exact ⟨hpt, hline, ⟨hpb, hsb, hlb⟩, ⟨hpo, hso, hlo⟩, hrest⟩

theorem loop {target iter : Expr} {body orelse : List Stmt}
    (h : Admissible (.loop target iter body orelse line :: rest)) :
    target.Admissible ∧ iter.Admissible ∧ Admissible body ∧ Admissible rest := by
  obtain ⟨⟨hp, -⟩, hrest⟩ := h.cons
  obtain ⟨hp, -⟩ := List.forall_mem_append.mp hp
  obtain ⟨hp, hpb⟩ := List.forall_mem_append.mp hp
  obtain ⟨hpt, hpi⟩ := List.forall_mem_append.mp hp
  obtain ⟨hsb, -⟩ := List.forall_mem_append.mp (List.forall_mem_append.mp h.signatures).1
  obtain ⟨-, hl⟩ := List.forall_mem_append.mp (List.forall_mem_append.mp h.lines).1
  obtain ⟨hlb, -⟩ := List.forall_mem_append.mp hl
  exact ⟨hpt, hpi, ⟨hpb, hsb, hlb⟩, hrest⟩

theorem definition {name : String} {parameters : List Parameter} {body : List Stmt}
    (h : Admissible (.functionDef name parameters body line :: rest)) :
    name ≠ "" ∧ (∀ p ∈ parameters, p.name ≠ "") ∧ Admissible body ∧ Admissible rest := by
  obtain ⟨⟨hp, -⟩, hrest⟩ := h.cons
  obtain ⟨hname, hsb⟩ := List.forall_mem_cons.mp (List.forall_mem_append.mp h.signatures).1
  obtain ⟨-, hlb⟩ := List.forall_mem_append.mp (List.forall_mem_append.mp h.lines).1
  exact ⟨hname.1, hname.2, ⟨hp, hsb, hlb⟩, hrest⟩

end Stmt.Admissible

end ProgramGraph
