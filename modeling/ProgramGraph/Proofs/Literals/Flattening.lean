import Mathlib.Data.List.Forall2
import ProgramGraph.Proofs.Literals.Folding

/-! What expressions flatten to: a literal that they fold to, a variable or a call that they are, or
several operands. -/
namespace ProgramGraph

open ProgramGraph.Graph

/-- What is left of an expression. -/
inductive Residue where
  /-- The literal that it folds to. -/
  | literal (l : Literal)
  /-- One operand that is no literal, or one that could not be folded any further. -/
  | single
  | several
deriving DecidableEq

namespace Residue

def literal? : Residue → Option Literal
  | literal l => some l
  | _ => none

def ofFold (folded : Option Literal) : Residue :=
  match folded with
  | some l => literal l
  | none => several

def ofBinary (op : BinaryOp) (left right : Residue) : Residue :=
  ofFold do (← left.literal?).foldBinary? op (← right.literal?)

def ofUnary (op : UnaryOp) : Residue → Residue
  | literal a => ((a.foldUnary? op).map literal).getD single
  | r => r

/-- Chains of comparisons do not fold. -/
def ofCompare (ops : List CompareOp) (left : Residue) (comparators : List Residue) : Residue :=
  match ops, comparators with
  | [op], [right] => ofFold do (← left.literal?).foldCompare? op (← right.literal?)
  | _, _ => several

theorem literal?_eq_some {r : Residue} {l : Literal} : r.literal? = some l ↔ r = .literal l := by
  cases r <;> simp [literal?]

theorem eq_some_of_ofFold {folded : Option Literal} {l : Literal} (h : ofFold folded = .literal l) :
    folded = some l := by
  cases folded with
  | none => cases h
  | some _ => rw [literal.inj h]

end Residue

mutual

def Expr.residue (e : Expr) : Residue :=
  match e with
  | .constant l _ => .literal l
  | .binary op left right _ => .ofBinary op left.residue right.residue
  | .unary op operand _ => .ofUnary op operand.residue
  | .compare left ops comparators _ => .ofCompare ops left.residue (residueOfEach comparators)
  | .boolean .. | .list .. | .tuple .. => .several
  | .name .. | .call .. | .subscript .. | .member .. | .unsupported .. => .single

def Expr.residueOfEach (es : List Expr) : List Residue :=
  match es with
  | [] => []
  | e :: rest => e.residue :: residueOfEach rest

end

namespace Expr

/-- The variable that an expression reads, as a whole or at a constant index. -/
def reads? : Expr → Option String
  | name id .load _ => some id
  | subscript (name id _ _) index .load _ => if index.isConstantIndex then some id else none
  | _ => none

/-- The shape that expressions in value position have in a program that was parsed. -/
def isFormed : Expr → Bool
  | constant l _ => l.value?.isSome
  | name _ access _ => access = .load
  | boolean _ values _ => 2 ≤ values.length
  | compare _ ops comparators _ => ops ≠ [] && ops.length = comparators.length
  | _ => true

/-- Flattening shows that there was an operator or a display: an operator with one operand folds or
has several in it, a display has at least two elements. -/
def isTraced : Expr → Bool
  | unary op operand _ =>
    match operand.residue with
    | .literal a => (a.foldUnary? op).isSome
    | .single => false
    | .several => true
  | list elements _ _ | tuple elements _ _ => 2 ≤ elements.length
  | _ => true

/-- Folding gives the value of the expression if it folds at all. -/
def isExact : Expr → Bool
  | constant l _ => l.isSafe
  | binary op left right _ =>
    match left.residue, right.residue with
    | .literal a, .literal b => op.isExact a b
    | _, _ => true
  | compare left _ comparators _ =>
    match left.residue, residueOfEach comparators with
    | .literal a, [.literal b] => a.comparesExactly b
    | _, _ => true
  | _ => true

/-- A condition on all expressions in an expression. -/
def All (q : Expr → Bool) (e : Expr) : Prop := ∀ p ∈ e.parts, q p = true

instance (q : Expr → Bool) (e : Expr) : Decidable (e.All q) := by
  unfold All
  infer_instance

namespace All
variable {q : Expr → Bool} {line : Option Int}

theorem self {e : Expr} (h : e.All q) : q e = true := by
  cases e <;> exact h _ List.mem_cons_self

theorem ofEach {es : List Expr} (h : ∀ p ∈ partsOfEach es, q p = true) : ∀ e ∈ es, e.All q := by
  induction es with
  | nil => exact nofun
  | cons e rest ih =>
    obtain ⟨he, hrest⟩ := List.forall_mem_append.mp h
    exact List.forall_mem_cons.mpr ⟨he, ih hrest⟩

theorem member {value : Expr} {attr : String} {access : Access}
    (h : (Expr.member value attr access line).All q) : value.All q :=
  (List.forall_mem_cons.mp h).2

theorem binary_iff {op : BinaryOp} {left right : Expr} :
    (Expr.binary op left right line).All q ↔
      q (Expr.binary op left right line) = true ∧ left.All q ∧ right.All q :=
  List.forall_mem_cons.trans (and_congr_right' List.forall_mem_append)

theorem binary {op : BinaryOp} {left right : Expr} (h : (Expr.binary op left right line).All q) :
    left.All q ∧ right.All q :=
  (binary_iff.mp h).2

theorem unary_iff {op : UnaryOp} {operand : Expr} :
    (Expr.unary op operand line).All q ↔
      q (Expr.unary op operand line) = true ∧ operand.All q :=
  List.forall_mem_cons

theorem unary {op : UnaryOp} {operand : Expr} (h : (Expr.unary op operand line).All q) :
    operand.All q :=
  (unary_iff.mp h).2

theorem boolean {op : BoolOp} {values : List Expr} (h : (Expr.boolean op values line).All q) :
    ∀ e ∈ values, e.All q :=
  ofEach (List.forall_mem_cons.mp h).2

theorem compare {left : Expr} {ops : List CompareOp} {comparators : List Expr}
    (h : (Expr.compare left ops comparators line).All q) :
    left.All q ∧ ∀ e ∈ comparators, e.All q := by
  obtain ⟨hl, hc⟩ := List.forall_mem_append.mp (List.forall_mem_cons.mp h).2
  exact ⟨hl, ofEach hc⟩

theorem func {func : Expr} {args : List Expr} {keywords : List String}
    (h : (Expr.call func args keywords line).All q) : func.All q :=
  (List.forall_mem_append.mp (List.forall_mem_cons.mp h).2).1

theorem call {func : Expr} {args : List Expr} {keywords : List String}
    (h : (Expr.call func args keywords line).All q) : ∀ e ∈ args, e.All q :=
  ofEach (List.forall_mem_append.mp (List.forall_mem_cons.mp h).2).2

theorem subscript {value index : Expr} {access : Access}
    (h : (Expr.subscript value index access line).All q) : value.All q ∧ index.All q :=
  List.forall_mem_append.mp (List.forall_mem_cons.mp h).2

theorem list {elements : List Expr} {access : Access}
    (h : (Expr.list elements access line).All q) : ∀ e ∈ elements, e.All q :=
  ofEach (List.forall_mem_cons.mp h).2

theorem tuple {elements : List Expr} {access : Access}
    (h : (Expr.tuple elements access line).All q) : ∀ e ∈ elements, e.All q :=
  ofEach (List.forall_mem_cons.mp h).2

end All

/-- How operands show an expression. -/
inductive Flattens : Expr → List Operand → Prop
  | literal {e : Expr} {l : Literal} (hres : e.residue = .literal l) : Flattens e [.literal l]
  | read {e : Expr} {r : Reference} (hres : e.residue = .single) (hread : e.reads? = some r.name) :
      Flattens e [.ref r]
  | call {func : Expr} {args : List Expr} {keywords : List String} {line : Option Int}
      {callee : String} {arguments : List (List Operand)} {v v' : Versions}
      (hcallee : func.callee line = .ok callee)
      (harguments : operandsOfEach args v = .ok (arguments, v')) :
      Flattens (.call func args keywords line) [.call callee arguments]
  | several {e : Expr} {os : List Operand} (hres : e.residue = .several) (hlength : 2 ≤ os.length) :
      Flattens e os

namespace Flattens
variable {e : Expr} {os : List Operand}

theorem length_pos (h : e.Flattens os) : 1 ≤ os.length := by
  cases h with
  | several _ h => omega
  | _ => exact Nat.le_refl 1

theorem singleLiteral?_of_length {os : List Operand} (h : 2 ≤ os.length) :
    Operand.singleLiteral? os = none := by
  unfold Operand.singleLiteral?
  split
  · rw [List.length_singleton] at h
    omega
  · rfl

/-- A literal is the only operand if the expression folds to it. -/
theorem singleLiteral?_eq (h : e.Flattens os) :
    Operand.singleLiteral? os = e.residue.literal? := by
  cases h with
  | literal hres =>
    rw [hres]
    rfl
  | read hres =>
    rw [hres]
    rfl
  | call => rfl
  | several hres hlength =>
    rw [hres]
    exact singleLiteral?_of_length hlength

/-- Operands of both sides, if they do not fold. -/
theorem of_fold {folded : Option Literal} (hres : e.residue = .ofFold folded)
    (hlength : 2 ≤ os.length) : e.Flattens (foldOr folded os) := by
  cases folded with
  | some l => exact .literal hres
  | none => exact .several hres hlength

end Flattens

theorem literal?_of_isSequence {e : Expr} (h : e.isSequence = true) : e.residue.literal? = none := by
  cases e <;> first | rfl | cases h

theorem length_flatten_le {es : List Expr} {oss : List (List Operand)}
    (h : List.Forall₂ Flattens es oss) : es.length ≤ oss.flatten.length := by
  induction h with
  | nil => exact Nat.le_refl 0
  | cons h _ ih =>
    have hpos := h.length_pos
    rw [List.length_cons, List.flatten_cons, List.length_append]
    omega

/-- Displays do not fold anyway. -/
theorem flattens_binary {op : BinaryOp} {left right : Expr} {line : Option Int}
    {ls rs : List Operand} (hl : left.Flattens ls) (hr : right.Flattens rs) :
    (binary op left right line).Flattens (binaryOperands op left right ls rs) := by
  have hlength : 2 ≤ (ls ++ rs).length := by
    have h₁ := hl.length_pos
    have h₂ := hr.length_pos
    rw [List.length_append]
    omega
  unfold binaryOperands
  rw [hl.singleLiteral?_eq, hr.singleLiteral?_eq]
  refine Flattens.of_fold ?_ hlength
  rw [residue, Residue.ofBinary]
  congr 1
  cases hls : left.isSequence with
  | true =>
    rw [literal?_of_isSequence hls]
    rfl
  | false =>
    cases hrs : right.isSequence with
    | true =>
      rw [literal?_of_isSequence hrs]
      cases left.residue.literal? <;> rfl
    | false => rfl

theorem flattens_unary {op : UnaryOp} {operand : Expr} {line : Option Int} {os : List Operand}
    (ho : operand.Flattens os) (ht : (unary op operand line).isTraced = true) :
    (unary op operand line).Flattens
      (foldOr ((Operand.singleLiteral? os).bind (Literal.foldUnary? op)) os) := by
  unfold isTraced at ht
  dsimp only at ht
  cases ho with
  | @literal e a hres =>
    rw [hres] at ht
    obtain ⟨b, hb⟩ := Option.isSome_iff_exists.mp ht
    change Flattens _ (foldOr (Literal.foldUnary? op a) _)
    rw [hb]
    refine .literal ?_
    rw [residue, hres, Residue.ofUnary, hb]
    rfl
  | read hres =>
    rw [hres] at ht
    cases ht
  | call => cases ht
  | several hres hlength =>
    rw [Flattens.singleLiteral?_of_length hlength]
    refine .several ?_ hlength
    rw [residue, hres]
    rfl

theorem flattens_compare {left : Expr} {ops : List CompareOp} {comparators : List Expr}
    {line : Option Int} {ls : List Operand} {rs : List (List Operand)} (hl : left.Flattens ls)
    (hr : List.Forall₂ Flattens comparators rs)
    (hf : (compare left ops comparators line).isFormed = true) :
    (compare left ops comparators line).Flattens (compareOperands ops ls rs) := by
  unfold isFormed at hf
  rw [Bool.and_eq_true, decide_eq_true_eq, decide_eq_true_eq] at hf
  obtain ⟨hne, hcount⟩ := hf
  have hlength : 2 ≤ (ls ++ rs.flatten).length := by
    have h₁ := hl.length_pos
    have h₂ := length_flatten_le hr
    have h₃ := List.length_pos_iff.mpr hne
    rw [List.length_append]
    omega
  unfold compareOperands
  refine Flattens.of_fold ?_ hlength
  rw [residue]
  match ops, comparators, rs, hr, hcount with
  | [op], [c], [r], .cons hc .nil, _ =>
    dsimp only
    rw [hl.singleLiteral?_eq, hc.singleLiteral?_eq]
    rfl
  | _ :: _ :: _, _ :: _ :: _, _ :: _ :: _, _, _ => rfl

mutual

theorem operands_flatten (e : Expr) {v v' : Versions} {os : List Operand}
    (h : e.operands v = .ok (os, v')) (hf : e.All isFormed) (ht : e.All isTraced) :
    e.Flattens os := by
  cases e with
  | constant l line =>
    obtain ⟨rfl, rfl⟩ := pure_eq_ok.mp h
    exact .literal rfl
  | name id access line =>
    obtain rfl : access = .load := by simpa [isFormed] using hf.self
    obtain ⟨r, w, hr, hp⟩ := bind_eq_ok.mp h
    obtain ⟨rfl, rfl⟩ := Versioning.read_eq_ok.mp hr
    obtain ⟨rfl, rfl⟩ := pure_eq_ok.mp hp
    exact .read rfl rfl
  | member value attr access line => cases h
  | binary op left right line =>
    obtain ⟨ls, w, hls, h⟩ := bind_eq_ok.mp h
    obtain ⟨rs, w', hrs, h⟩ := bind_eq_ok.mp h
    obtain ⟨rfl, rfl⟩ := pure_eq_ok.mp h
    exact flattens_binary (operands_flatten left hls hf.binary.1 ht.binary.1)
      (operands_flatten right hrs hf.binary.2 ht.binary.2)
  | unary op operand line =>
    obtain ⟨os, w, hos, h⟩ := bind_eq_ok.mp h
    obtain ⟨rfl, rfl⟩ := pure_eq_ok.mp h
    exact flattens_unary (operands_flatten operand hos hf.unary ht.unary) ht.self
  | boolean op values line =>
    obtain ⟨oss, w, hos, h⟩ := bind_eq_ok.mp h
    obtain ⟨rfl, rfl⟩ := pure_eq_ok.mp h
    have hlength := length_flatten_le (operandsOfEach_flatten values hos hf.boolean ht.boolean)
    have htwo : 2 ≤ values.length := by simpa [isFormed] using hf.self
    exact .several rfl (by omega)
  | compare left ops comparators line =>
    obtain ⟨ls, w, hls, h⟩ := bind_eq_ok.mp h
    obtain ⟨rs, w', hrs, h⟩ := bind_eq_ok.mp h
    obtain ⟨rfl, rfl⟩ := pure_eq_ok.mp h
    exact flattens_compare (operands_flatten left hls hf.compare.1 ht.compare.1)
      (operandsOfEach_flatten comparators hrs hf.compare.2 ht.compare.2) hf.self
  | call func args keywords line =>
    obtain ⟨_, w, hk, h⟩ := bind_eq_ok.mp h
    obtain ⟨-, rfl⟩ := Versioning.ofResult_eq_ok.mp hk
    obtain ⟨callee, w, hc, h⟩ := bind_eq_ok.mp h
    obtain ⟨hcallee, rfl⟩ := Versioning.ofResult_eq_ok.mp hc
    obtain ⟨oss, w, hos, h⟩ := bind_eq_ok.mp h
    obtain ⟨rfl, rfl⟩ := pure_eq_ok.mp h
    exact .call hcallee hos
  | subscript value index access line =>
    cases access with
    | load =>
      obtain ⟨x, w, hs, h⟩ := bind_eq_ok.mp h
      obtain ⟨hx, rfl⟩ := Versioning.ofResult_eq_ok.mp hs
      obtain ⟨r, w, hr, h⟩ := bind_eq_ok.mp h
      obtain ⟨rfl, rfl⟩ := Versioning.read_eq_ok.mp hr
      obtain ⟨rfl, rfl⟩ := pure_eq_ok.mp h
      obtain ⟨⟨access, own, rfl⟩, hi⟩ := subscriptBase_eq_ok hx
      exact .read rfl (if_pos hi)
    | store => cases h
    | del => cases h
  | list elements access line =>
    cases access with
    | load =>
      obtain ⟨oss, w, hos, h⟩ := bind_eq_ok.mp h
      obtain ⟨rfl, rfl⟩ := pure_eq_ok.mp h
      have hlength := length_flatten_le (operandsOfEach_flatten elements hos hf.list ht.list)
      have htwo : 2 ≤ elements.length := by simpa [isTraced] using ht.self
      exact .several rfl (by omega)
    | store => cases h
    | del => cases h
  | tuple elements access line =>
    cases access with
    | load =>
      obtain ⟨oss, w, hos, h⟩ := bind_eq_ok.mp h
      obtain ⟨rfl, rfl⟩ := pure_eq_ok.mp h
      have hlength := length_flatten_le (operandsOfEach_flatten elements hos hf.tuple ht.tuple)
      have htwo : 2 ≤ elements.length := by simpa [isTraced] using ht.self
      exact .several rfl (by omega)
    | store => cases h
    | del => cases h
  | unsupported nodeType line => cases h

theorem operandsOfEach_flatten (es : List Expr) {v v' : Versions} {oss : List (List Operand)}
    (h : operandsOfEach es v = .ok (oss, v')) (hf : ∀ e ∈ es, e.All isFormed)
    (ht : ∀ e ∈ es, e.All isTraced) : List.Forall₂ Flattens es oss := by
  cases es with
  | nil =>
    obtain ⟨rfl, rfl⟩ := pure_eq_ok.mp h
    exact .nil
  | cons e rest =>
    obtain ⟨os, w, hos, h⟩ := bind_eq_ok.mp h
    obtain ⟨oss, w', hoss, h⟩ := bind_eq_ok.mp h
    obtain ⟨rfl, rfl⟩ := pure_eq_ok.mp h
    rw [List.forall_mem_cons] at hf ht
    exact .cons (operands_flatten e hos hf.1 ht.1) (operandsOfEach_flatten rest hoss hf.2 ht.2)

end

end Expr
end ProgramGraph
