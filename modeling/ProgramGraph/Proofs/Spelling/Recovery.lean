import ProgramGraph.Proofs.Literals.Flattening
import ProgramGraph.Proofs.Spelling.Bare

/-! The reader undoes the rendering of expressions, up to lines, accesses and keywords, which no
text shows. -/
namespace ProgramGraph.Spelling

section Constructors
variable {line : Option Int} {access : Access}

theorem recovers_member {value : Expr} {attr : String} (h : Recovers value)
    (hattr : isIdentifier attr = true) : Recovers (.member value attr access line) := by
  obtain ⟨text, hsource, hreads⟩ := h.operand
  obtain ⟨-, -, hw⟩ := word_of_isIdentifier hattr
  have hmember : ReadsOperand (text.toList ++ '.' :: attr.toList)
      (.member value.bare attr .load none) := by
    refine hreads.applied (by decide) fun rest hrest => ?_
    have hlength : rest.length < ('.' :: (attr.toList ++ rest)).length :=
      length_lt_append (List.cons_ne_nil '.' attr.toList)
    rw [applied, spanWord_append hw hrest]
    simp only [behind_eq hlength, Option.bind_eq_bind, Option.bind_some, String.ofList_toList]
  refine .of_operand (text ++ "." ++ attr) (fun _ => ?_) (by simpa [Expr.bare] using hmember)
  rw [Expr.source, hsource]
  rfl

theorem recovers_call {func : Expr} {args : List Expr} {keywords : List String}
    (h : Recovers func) (hargs : ∀ e ∈ args, Recovers e) :
    Recovers (.call func args keywords line) := by
  obtain ⟨text, hsource, hreads⟩ := h.operand
  obtain ⟨texts, hsources, hall⟩ := forall₂_sources fun e he => (hargs e he).whole
  have hcall : ReadsOperand (text.toList ++ '(' :: ((", ".intercalate texts).toList ++ [')']))
      (.call func.bare (args.map Expr.bare) [] none) := by
    refine hreads.applied (by decide) fun rest _ => ?_
    have hlength := length_lt_enclosed '(' ')' (", ".intercalate texts).toList rest
    rw [List.append_assoc, List.singleton_append, applied, items_intercalate (.inl rfl) hall]
    simp only [behind_eq hlength, Option.bind_eq_bind, Option.bind_some]
  refine .of_operand (text ++ "(" ++ ", ".intercalate texts ++ ")") (fun _ => ?_) ?_
  · rw [Expr.source, hsource, hsources]
    rfl
  · rw [Expr.bare, Expr.bareOfEach_eq]
    simpa using hcall

theorem recovers_subscript {value index : Expr} (h : Recovers value) (hindex : Recovers index) :
    Recovers (.subscript value index access line) := by
  obtain ⟨text, hsource, hreads⟩ := h.operand
  obtain ⟨inner, hinner, hwhole⟩ := hindex.whole
  have hsubscript : ReadsOperand (text.toList ++ '[' :: (inner.toList ++ [']']))
      (.subscript value.bare index.bare .load none) := by
    refine hreads.applied (by decide) fun rest _ => ?_
    have hlength := length_lt_enclosed '[' ']' inner.toList rest
    rw [List.append_assoc, List.singleton_append, applied, hwhole _ (ends_cons (by decide))]
    simp only [behind_eq hlength, Option.bind_eq_bind, Option.bind_some]
  refine .of_operand (text ++ "[" ++ inner ++ "]") (fun _ => ?_) ?_
  · rw [Expr.source, hsource, hinner]
    rfl
  · simpa [Expr.bare] using hsubscript

theorem recovers_list {elements : List Expr} (h : ∀ e ∈ elements, Recovers e) :
    Recovers (.list elements access line) := by
  obtain ⟨texts, hsources, hall⟩ := forall₂_sources fun e he => (h e he).whole
  have hlist : ReadsOperand ('[' :: ((", ".intercalate texts).toList ++ [']']))
      (.list (elements.map Expr.bare) .load none) := by
    refine readsOperand_of_head (by decide) fun rest => ?_
    rw [List.append_assoc, List.singleton_append, head, items_intercalate (.inr rfl) hall]
    rfl
  refine .of_operand ("[" ++ ", ".intercalate texts ++ "]") (fun _ => ?_) ?_
  · rw [Expr.source, hsources]
    rfl
  · rw [Expr.bare, Expr.bareOfEach_eq]
    simpa using hlist

/-- The comma of a tuple of one item tells it from an operation in parentheses. -/
theorem recovers_tuple {elements : List Expr} (h : ∀ e ∈ elements, Recovers e) :
    Recovers (.tuple elements access line) := by
  obtain ⟨texts, hsources, hall⟩ := forall₂_sources fun e he => (h e he).whole
  by_cases hone : elements.length = 1
  · obtain ⟨e, rfl⟩ := List.length_eq_one_iff.mp hone
    cases hall with
    | @cons _ text _ _ hread hnil =>
      cases hnil
      have htuple : ReadsOperand ('(' :: (text.toList ++ [',', ')']))
          (.tuple [e.bare] .load none) := by
        refine readsOperand_of_head (by decide) fun rest => ?_
        rw [List.append_assoc, head]
        simp only [List.cons_append, List.nil_append, hread.items_comma (.inl rfl)]
        rfl
      refine .of_operand ("(" ++ text ++ ",)") (fun _ => ?_) ?_
      · rw [Expr.source, hsources]
        rfl
      · rw [Expr.bare, Expr.bareOfEach_eq]
        simpa using htuple
  · have htuple : ReadsOperand ('(' :: ((", ".intercalate texts).toList ++ [')']))
        (.tuple (elements.map Expr.bare) .load none) := by
      refine readsOperand_of_head (by decide) fun rest => ?_
      rw [List.append_assoc, List.singleton_append, head, items_intercalate (.inl rfl) hall]
      cases elements with
      | nil => rfl
      | cons e rest =>
        cases rest with
        | nil => exact absurd rfl hone
        | cons => rfl
    have hlength : texts.length ≠ 1 := by
      rw [← hall.length_eq, List.length_map]
      exact hone
    refine .of_operand ("(" ++ ", ".intercalate texts ++ ")") (fun _ => ?_) ?_
    · rw [Expr.source, hsources]
      cases texts with
      | nil => rfl
      | cons text rest =>
        cases rest with
        | nil => exact absurd rfl hlength
        | cons => rfl
    · rw [Expr.bare, Expr.bareOfEach_eq]
      simpa using htuple

theorem recovers_binary {op : BinaryOp} {left right : Expr} (hl : Recovers left)
    (hr : Recovers right) : Recovers (.binary op left right line) := by
  obtain ⟨first, hfirst, hreads⟩ := hl.operand
  obtain ⟨second, hsecond, hreads'⟩ := hr.operand
  have hwhole := Joined.readsWhole hreads (.cons (.binary op) hreads' .nil)
  refine .of_whole (first ++ " " ++ op.symbol ++ " " ++ second) ?_ ?_ ?_
  · rw [Expr.source, hfirst, hsecond]
    rfl
  · rw [Expr.source, hfirst, hsecond]
    rfl
  · simpa [Expr.bare, linked, Link.symbol] using hwhole

theorem recovers_unary {op : UnaryOp} {operand : Expr} (h : Recovers operand) :
    Recovers (.unary op operand line) := by
  obtain ⟨text, hsource, hreads⟩ := h.operand
  refine .of_whole (op.symbol ++ text) ?_ ?_ (by simpa [Expr.bare] using hreads.unary op)
  · rw [Expr.source, hsource]
    rfl
  · rw [Expr.source, hsource]
    rfl

theorem recovers_boolean {op : BoolOp} {values : List Expr} (hlength : 2 ≤ values.length)
    (h : ∀ e ∈ values, Recovers e) : Recovers (.boolean op values line) := by
  obtain ⟨texts, hsources, hall⟩ := forall₂_sources fun e he => (h e he).operand
  have hwhole : ReadsWhole ((" " ++ op.symbol ++ " ").intercalate texts).toList
      (.boolean op (values.map Expr.bare) none) := by
    match values, hlength with
    | e :: e' :: rest, _ =>
      cases hall with
      | @cons _ text _ texts hread hreads =>
        obtain ⟨cs, hcs, hjoined⟩ := Joined.of_intercalate (.boolean op) hreads text
        have hlinked := hjoined.readsWhole hread
        rw [← hcs] at hlinked
        simpa [linked, Link.symbol, Function.comp_def] using hlinked
  refine .of_whole ((" " ++ op.symbol ++ " ").intercalate texts) ?_ ?_ ?_
  · rw [Expr.source, hsources]
    rfl
  · rw [Expr.source, hsources]
    rfl
  · rw [Expr.bare, Expr.bareOfEach_eq]
    exact hwhole

/-- The comparisons behind the first operand. -/
theorem joined_chainSource {ops : List CompareOp} {es : List Expr}
    (hlength : ops.length = es.length) (h : ∀ e ∈ es, Recovers e) :
    ∃ text, Expr.chainSource ops es line = .ok text ∧
      Joined ((ops.map Link.compare).zip (es.map Expr.bare)) text.toList := by
  induction ops generalizing es with
  | nil =>
    exact ⟨"", by rw [Expr.chainSource], .nil⟩
  | cons op ops ih =>
    cases es with
    | nil => cases hlength
    | cons e es =>
      obtain ⟨he, hes⟩ := List.forall_mem_cons.mp h
      obtain ⟨text, hsource, hreads⟩ := he.operand
      obtain ⟨chain, hchain, hjoined⟩ := ih (Nat.succ.inj hlength) hes
      refine ⟨" " ++ op.symbol ++ " " ++ text ++ chain, ?_, ?_⟩
      · rw [Expr.chainSource, hsource, hchain]
        rfl
      · simpa [Link.symbol] using Joined.cons (.compare op) hreads hjoined

theorem recovers_compare {left : Expr} {ops : List CompareOp} {comparators : List Expr}
    (hops : ops ≠ []) (hlength : ops.length = comparators.length) (hl : Recovers left)
    (h : ∀ e ∈ comparators, Recovers e) : Recovers (.compare left ops comparators line) := by
  obtain ⟨first, hfirst, hreads⟩ := hl.operand
  obtain ⟨chain, hchain, hjoined⟩ := joined_chainSource hlength h
  have hlinked : linked left.bare ((ops.map Link.compare).zip (comparators.map Expr.bare)) =
      .compare left.bare ops (comparators.map Expr.bare) none :=
    linked_compare _ hops (by rw [hlength, List.length_map])
  refine .of_whole (first ++ chain) ?_ ?_ ?_
  · rw [Expr.source, hfirst, hchain]
    rfl
  · rw [Expr.source, hfirst, hchain]
    rfl
  · rw [Expr.bare, Expr.bareOfEach_eq, ← hlinked]
    simpa using hjoined.readsWhole hreads

end Constructors

mutual

theorem recovers (e : Expr) (h : e.All Expr.isSpelled) : Recovers e := by
  cases e with
  | constant l line => exact recovers_constant h.self
  | name id access line => exact recovers_name h.self
  | member value attr access line => exact recovers_member (recovers value h.member) h.self
  | binary op left right line =>
    exact recovers_binary (recovers left h.binary.1) (recovers right h.binary.2)
  | unary op operand line => exact recovers_unary (recovers operand h.unary)
  | boolean op values line =>
    exact recovers_boolean (by simpa [Expr.isSpelled] using h.self)
      (recoversOfEach values h.boolean)
  | compare left ops comparators line =>
    obtain ⟨hops, hlength⟩ : ops ≠ [] ∧ ops.length = comparators.length := by
      simpa [Expr.isSpelled] using h.self
    exact recovers_compare hops hlength (recovers left h.compare.1)
      (recoversOfEach comparators h.compare.2)
  | call func args keywords line =>
    exact recovers_call (recovers func h.func) (recoversOfEach args h.call)
  | subscript value index access line =>
    exact recovers_subscript (recovers value h.subscript.1) (recovers index h.subscript.2)
  | list elements access line => exact recovers_list (recoversOfEach elements h.list)
  | tuple elements access line => exact recovers_tuple (recoversOfEach elements h.tuple)
  | unsupported nodeType line => exact absurd h.self (by simp [Expr.isSpelled])

theorem recoversOfEach (es : List Expr) (h : ∀ e ∈ es, e.All Expr.isSpelled) :
    ∀ e ∈ es, Recovers e := by
  cases es with
  | nil => exact nofun
  | cons e rest =>
    obtain ⟨he, hrest⟩ := List.forall_mem_cons.mp h
    exact List.forall_mem_cons.mpr ⟨recovers e he, recoversOfEach rest hrest⟩

end

end ProgramGraph.Spelling
