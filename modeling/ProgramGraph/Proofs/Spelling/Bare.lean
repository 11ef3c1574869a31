import ProgramGraph.Proofs.Spelling.Texts

/-! Expressions without what no text shows, and what it is to read them back from their texts. The
leaves are read back. -/
namespace ProgramGraph

mutual

/-- An expression without its lines, accesses and keywords. -/
def Expr.bare (e : Expr) : Expr :=
  match e with
  | .constant l _ => .constant l none
  | .name id _ _ => .name id .load none
  | .member value attr _ _ => .member value.bare attr .load none
  | .binary op left right _ => .binary op left.bare right.bare none
  | .unary op operand _ => .unary op operand.bare none
  | .boolean op values _ => .boolean op (bareOfEach values) none
  | .compare left ops comparators _ => .compare left.bare ops (bareOfEach comparators) none
  | .call func args _ _ => .call func.bare (bareOfEach args) [] none
  | .subscript value index _ _ => .subscript value.bare index.bare .load none
  | .list elements _ _ => .list (bareOfEach elements) .load none
  | .tuple elements _ _ => .tuple (bareOfEach elements) .load none
  | .unsupported nodeType _ => .unsupported nodeType none

def Expr.bareOfEach (es : List Expr) : List Expr :=
  match es with
  | [] => []
  | e :: rest => e.bare :: bareOfEach rest

end

namespace Expr

theorem bareOfEach_eq (es : List Expr) : bareOfEach es = es.map bare := by
  induction es with
  | nil => rfl
  | cons e rest ih => rw [bareOfEach, ih, List.map_cons]

/-- An expression that program text shows: its names are words that stand for nothing else, its
constants are leaves, and its operators stand between operands. -/
def isSpelled : Expr → Bool
  | constant l _ => l.isSpelled
  | name id _ _ => Spelling.isIdentifier id
  | member _ attr _ _ => Spelling.isIdentifier attr
  | boolean _ values _ => 2 ≤ values.length
  | compare _ ops comparators _ => ops ≠ [] && ops.length = comparators.length
  | unsupported .. => false
  | _ => true

end Expr

namespace Spelling

/-- Both texts of an expression read as that expression. -/
structure Recovers (e : Expr) : Prop where
  whole : ∃ text, e.source false = .ok text ∧ ReadsWhole text.toList e.bare
  operand : ∃ text, e.source true = .ok text ∧ ReadsOperand text.toList e.bare

namespace Recovers
variable {e : Expr} (text : String)

theorem of_operand (hsource : ∀ nested, e.source nested = .ok text)
    (h : ReadsOperand text.toList e.bare) : Recovers e :=
  ⟨⟨text, hsource false, h.readsWhole⟩, ⟨text, hsource true, h⟩⟩

theorem of_whole (hsource : e.source false = .ok text)
    (hnested : e.source true = .ok ("(" ++ text ++ ")")) (h : ReadsWhole text.toList e.bare) :
    Recovers e := by
  refine ⟨⟨text, hsource, h⟩, ⟨_, hnested, ?_⟩⟩
  simpa using h.readsOperand

end Recovers

/-- The texts of expressions that can each be read. -/
theorem forall₂_sources {nested : Bool} {reads : List Char → Expr → Prop} {es : List Expr}
    (h : ∀ e ∈ es, ∃ text, e.source nested = .ok text ∧ reads text.toList e.bare) :
    ∃ texts, Expr.sources es nested = .ok texts ∧
      List.Forall₂ (fun e text => reads text.toList e) (es.map Expr.bare) texts := by
  induction es with
  | nil => exact ⟨[], rfl, .nil⟩
  | cons e rest ih =>
    obtain ⟨he, hrest⟩ := List.forall_mem_cons.mp h
    obtain ⟨text, hsource, hreads⟩ := he
    obtain ⟨texts, hsources, hall⟩ := ih hrest
    exact ⟨text :: texts, by rw [Expr.sources, hsource, hsources]; rfl, .cons hreads hall⟩

section Leaves
variable {line : Option Int} {access : Access}

theorem recovers_constant {l : Literal} (h : l.isSpelled = true) :
    Recovers (.constant l line) := by
  have hreads : ReadsOperand l.source.toList (.constant l none) := by
    obtain ⟨s, rfl⟩ | ⟨hne, hnot, hw, he⟩ := source_cases h
    · have htext : (Literal.source ⟨.string, .string s⟩).toList =
          '"' :: (s.toList.flatMap Text.escape ++ ['"']) := by
        simp [Literal.source, Scalar.text, Text.quote]
      rw [htext]
      exact readsOperand_quoted s
    · exact readsOperand_word hne hnot hw he
  exact .of_operand _ (fun _ => by rw [Expr.source]) hreads

theorem recovers_name {id : String} (h : isIdentifier id = true) :
    Recovers (.name id access line) := by
  obtain ⟨hne, hnot, hw⟩ := word_of_isIdentifier h
  have hreads : ReadsOperand id.toList (Expr.name id access line).bare := by
    rw [Expr.bare]
    exact readsOperand_word hne hnot hw (ofWord?_identifier h)
  exact .of_operand _ (fun _ => by rw [Expr.source]) hreads

end Leaves
end Spelling
end ProgramGraph
