import ProgramGraph.Proofs.Spelling.Reader

/-! What texts read as, whatever comes behind them: operands, operations and lists in brackets. -/
namespace ProgramGraph.Spelling

/-- The text reads as an operand wherever no word goes on behind it. -/
def ReadsOperand (text : List Char) (e : Expr) : Prop :=
  ∀ rest, Breaks rest → unary? (text ++ rest) = none ∧ operand (text ++ rest) = applied e rest

/-- The text reads as a whole expression wherever none goes on behind it. -/
def ReadsWhole (text : List Char) (e : Expr) : Prop :=
  ∀ rest, Ends rest → whole (text ++ rest) = some (e, rest)

section Operands
variable {text : List Char} {e : Expr}

theorem ReadsWhole.head?_ne {close : Char} (hclose : close = ')' ∨ close = ']')
    (h : ReadsWhole text e) {rest : List Char} (hr : Ends rest) :
    (text ++ rest).head? ≠ some close := by
  intro hhead
  obtain ⟨cs, hcs⟩ : ∃ cs, text ++ rest = close :: cs := List.head?_eq_some_iff.mp hhead
  have hwhole := h rest hr
  rw [hcs, whole_close hclose] at hwhole
  cases hwhole

section Items
variable {close : Char} (hclose : close = ')' ∨ close = ']')
include hclose

theorem ends_close (rest : List Char) : Ends (close :: rest) := by
  rcases hclose with rfl | rfl <;> exact ends_cons (by decide)

theorem ReadsWhole.items_last (h : ReadsWhole text e) (rest : List Char) :
    items close (text ++ close :: rest) = some (([e], false), rest) := by
  have hends := ends_close hclose rest
  rw [items, if_neg (h.head?_ne hclose hends), h _ hends]
  rcases hclose with rfl | rfl <;> simp

theorem ReadsWhole.items_cons (h : ReadsWhole text e) (cs : List Char) :
    items close (text ++ ',' :: ' ' :: cs) =
      (items close cs).map fun p => ((e :: p.1.1, p.1.2), p.2) := by
  have hends : Ends (',' :: ' ' :: cs) := ends_cons (by decide)
  rw [items, if_neg (h.head?_ne hclose hends), h _ hends]
  have hlength : cs.length < (text ++ ',' :: ' ' :: cs).length := by
    simp only [List.length_cons, List.length_append]
    omega
  simp only [Option.bind_eq_bind, Option.bind_some, behind_eq hlength]
  cases items close cs <;> rfl

theorem ReadsWhole.items_comma (h : ReadsWhole text e) (rest : List Char) :
    items close (text ++ ',' :: close :: rest) = some (([e], true), rest) := by
  have hends : Ends (',' :: close :: rest) := ends_cons (by decide)
  rw [items, if_neg (h.head?_ne hclose hends), h _ hends]
  rcases hclose with rfl | rfl <;> simp

/-- What stands between two brackets: the texts of expressions with commas between them. -/
theorem items_intercalate {es : List Expr} {texts : List String}
    (h : List.Forall₂ (fun e text => ReadsWhole text.toList e) es texts) (rest : List Char) :
    items close ((", ".intercalate texts).toList ++ close :: rest) = some ((es, false), rest) := by
  induction h with
  | nil =>
    rw [items]
    simp
  | @cons e text es texts he hes ih =>
    cases hes with
    | nil => exact he.items_last hclose rest
    | @cons e' text' es texts he' hes =>
      have hsplit : (", ".intercalate (text :: text' :: texts)).toList ++ close :: rest =
          text.toList ++
            ',' :: ' ' :: ((", ".intercalate (text' :: texts)).toList ++ close :: rest) := by
        simp [String.intercalate_cons_cons]
      rw [hsplit, he.items_cons hclose, ih]
      rfl

end Items

/-- What starts with a bracket or a quote is an operand if its end shows. -/
theorem readsOperand_of_head {c : Char} {cs : List Char} (hc : c ∈ ['(', '[', '"'])
    (h : ∀ rest, head (c :: (cs ++ rest)) = some (e, rest)) : ReadsOperand (c :: cs) e := by
  intro rest _
  rw [List.cons_append]
  have hopening : c ≠ '-' ∧ c ≠ '+' ∧ isWordChar c = false := by
    simp only [List.mem_cons, List.not_mem_nil, or_false] at hc
    rcases hc with rfl | rfl | rfl <;> decide
  obtain ⟨hneg, hpos, hw⟩ := hopening
  constructor
  · exact unary?_cons hneg hpos hw _
  · have hlength : rest.length < (c :: (cs ++ rest)).length :=
      length_lt_append (List.cons_ne_nil c cs)
    rw [operand, h]
    simp only [Option.bind_eq_bind, Option.bind_some, behind_eq hlength]

/-- An operation in parentheses is an operand. -/
theorem ReadsWhole.readsOperand (h : ReadsWhole text e) :
    ReadsOperand ('(' :: (text ++ [')'])) e := by
  refine readsOperand_of_head (by decide) fun rest => ?_
  rw [List.append_assoc, List.singleton_append, head, h.items_last (.inl rfl)]
  rfl

/-- A word that denotes an expression is an operand. -/
theorem readsOperand_word (hne : text ≠ []) (hnot : text ≠ "not".toList)
    (hw : text.all isWordChar = true) (he : ofWord? text = some e) : ReadsOperand text e := by
  intro rest hr
  refine ⟨unary?_word hne hnot hw hr, ?_⟩
  have hhead : head (text ++ rest) = word? (text ++ rest) := by
    cases text with
    | nil => exact absurd rfl hne
    | cons c w =>
      have hc : isWordChar c = true := List.all_eq_true.mp hw c List.mem_cons_self
      rw [List.cons_append, head]
      all_goals
        intro cs hcs
        obtain ⟨rfl, -⟩ := List.cons.inj hcs
        exact absurd hc (by decide)
  rw [operand, hhead, word?_append hne hw hr he]
  simp only [Option.bind_eq_bind, Option.bind_some, behind_eq (length_lt_append hne)]

/-- A quoted text is an operand. -/
theorem readsOperand_quoted (s : String) :
    ReadsOperand ('"' :: (s.toList.flatMap Text.escape ++ ['"']))
      (.constant ⟨.string, .string s⟩ none) := by
  intro rest _
  refine ⟨by simp [unary?, spanWord, isWordChar], ?_⟩
  have hlength := length_lt_enclosed '"' '"' (s.toList.flatMap Text.escape) rest
  rw [List.cons_append, List.append_assoc, List.singleton_append, operand, head,
    Text.unquote?_append]
  simp only [Option.bind_eq_bind, Option.bind_some, Option.pure_def, behind_eq hlength,
    String.ofList_toList]

theorem ReadsOperand.ne_nil (h : ReadsOperand text e) : text ≠ [] := by
  rintro rfl
  have hoperand : operand [] = applied e [] := (h [] pauses_nil.breaks).2
  have hhead : head [] = none := by
    rw [head]
    all_goals simp [word?, spanWord]
  rw [pauses_nil.applied, operand, hhead] at hoperand
  cases hoperand

/-- What is applied to an operand makes another one of it. -/
theorem ReadsOperand.applied {c : Char} {cs : List Char} {applied : Expr} (h : ReadsOperand text e)
    (hc : isWordChar c = false)
    (happlied : ∀ rest, Breaks rest → Spelling.applied e (c :: (cs ++ rest)) =
      Spelling.applied applied rest) : ReadsOperand (text ++ c :: cs) applied := by
  intro rest hr
  have hbreaks : Breaks (c :: (cs ++ rest)) := by
    intro d hd
    obtain rfl := Option.some.inj hd
    exact hc
  rw [List.append_assoc, List.cons_append]
  obtain ⟨hunary, hoperand⟩ := h _ hbreaks
  exact ⟨hunary, hoperand.trans (happlied rest hr)⟩

end Operands

/-- Operators, each with the text of the operand behind it. -/
inductive Joined : List (Link × Expr) → List Char → Prop
  | nil : Joined [] []
  | cons (link : Link) {text : List Char} {e : Expr} {joints : List (Link × Expr)}
      {cs : List Char} (h : ReadsOperand text e) (hjoints : Joined joints cs) :
      Joined ((link, e) :: joints) (' ' :: (link.symbol.toList ++ ' ' :: (text ++ cs)))

namespace Joined
variable {joints : List (Link × Expr)} {cs rest : List Char}

theorem pauses (h : Joined joints cs) (hr : Ends rest) : Pauses (cs ++ rest) := by
  cases h with
  | nil => exact hr.toPauses
  | cons => exact pauses_cons (by decide) (by decide) (by decide) (by decide)

theorem links_append (h : Joined joints cs) (hr : Ends rest) :
    links (cs ++ rest) = some (joints, rest) := by
  induction h with
  | nil => rw [List.nil_append, links, hr.link?]
  | @cons link text e joints cs he hjoints ih =>
    have hpauses := hjoints.pauses hr
    have hoperand : operand (text ++ (cs ++ rest)) = some (e, cs ++ rest) := by
      rw [(he _ hpauses.breaks).2, hpauses.applied]
    have hlink := length_lt_enclosed ' ' ' ' link.symbol.toList (text ++ (cs ++ rest))
    have hrest := (length_lt_append he.ne_nil).trans hlink
    simp only [List.cons_append, List.append_assoc]
    rw [links, link?_symbol]
    simp only [behind_eq hlink, hoperand, behind_eq hrest, ih, Option.bind_eq_bind,
      Option.bind_some]
    rfl

/-- Operands with operators between them are one operation. -/
theorem readsWhole {text : List Char} {e : Expr} (he : ReadsOperand text e)
    (h : Joined joints cs) : ReadsWhole (text ++ cs) (linked e joints) := by
  intro rest hr
  have hpauses := h.pauses hr
  obtain ⟨hunary, hoperand⟩ := he _ hpauses.breaks
  have hlength : (cs ++ rest).length < (text ++ (cs ++ rest)).length :=
    length_lt_append he.ne_nil
  rw [List.append_assoc, whole, hunary]
  simp only [hoperand, hpauses.applied, behind_eq hlength, h.links_append hr, Option.bind_eq_bind,
    Option.bind_some]
  rfl

/-- The texts of operands with the same operator between them. -/
theorem of_intercalate (link : Link) {es : List Expr} {texts : List String}
    (h : List.Forall₂ (fun e text => ReadsOperand text.toList e) es texts) (first : String) :
    ∃ cs, ((" " ++ link.symbol ++ " ").intercalate (first :: texts)).toList = first.toList ++ cs ∧
      Joined (es.map (link, ·)) cs := by
  induction h generalizing first with
  | nil => exact ⟨[], by simp, .nil⟩
  | @cons e text es texts he hes ih =>
    obtain ⟨cs, hcs, hjoined⟩ := ih text
    refine ⟨_, ?_, .cons link he hjoined⟩
    simp [String.intercalate_cons_cons, hcs]

end Joined

theorem ReadsOperand.readsWhole {text : List Char} {e : Expr} (h : ReadsOperand text e) :
    ReadsWhole text e := by
  simpa [linked] using Joined.nil.readsWhole h

theorem ReadsOperand.unary {text : List Char} {e : Expr} (h : ReadsOperand text e) (op : UnaryOp) :
    ReadsWhole (op.symbol.toList ++ text) (.unary op e none) := by
  intro rest hr
  have hsymbol : op.symbol.toList ≠ [] := by cases op <;> decide
  have hlength : (text ++ rest).length < (op.symbol.toList ++ (text ++ rest)).length :=
    length_lt_append hsymbol
  rw [List.append_assoc, whole, unary?_symbol]
  simp only [behind_eq hlength, (h rest hr.breaks).2, hr.applied, Option.bind_eq_bind,
    Option.bind_some]
  rfl

end ProgramGraph.Spelling
