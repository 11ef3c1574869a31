import ProgramGraph.Proofs.Literals.Recorded

/-! Expressions that are accepted, each for the place in which it stands. -/
namespace ProgramGraph

open ProgramGraph.Graph

/-- Arguments of a call for its effect are literals and versions. -/
theorem Lowering.effectInputs_cons {os : List Operand} {rest : List (List Operand)}
    {input : List Reference} {line : Option Int}
    (h : effectInputs line (os :: rest) = .ok input) :
    (∀ f, Input.function f ∉ Operand.leavesOf os) ∧
      ∃ others, effectInputs line rest = .ok others := by
  unfold effectInputs at h
  split at h
  · rename_i heq
    cases heq
  · rename_i heq
    obtain ⟨rfl, rfl⟩ := List.cons.inj heq
    exact ⟨by simp [Operand.leavesOf, Operand.leaves], input, h⟩
  · rename_i heq
    obtain ⟨rfl, rfl⟩ := List.cons.inj heq
    obtain ⟨others, ho, -⟩ := except_bind_eq_ok.mp h
    exact ⟨by simp [Operand.leavesOf, Operand.leaves], others, ho⟩
  · cases h
  · cases h

namespace Expr

def isName : Expr → Bool
  | name .. => true
  | _ => false

/-- A name, perhaps behind qualifications. -/
def isQualified : Expr → Bool
  | name .. => true
  | member value _ _ _ => value.isQualified
  | _ => false

/-- A name, or a constant element of a named array. -/
def isTarget : Expr → Bool
  | name .. => true
  | subscript value index _ _ => value.isName && index.isConstantIndex
  | _ => false

def isTypeName : Expr → Bool
  | name id _ _ => ["int", "float", "str", "bool"].contains id
  | _ => false

/-- The name of a type, bare or in a list. -/
def isAnnotation : Expr → Bool
  | subscript (name id _ _) index _ _ => ["List", "list"].contains id && index.isTypeName
  | e => e.isTypeName

mutual

/-- In value position attributes stand in callees only, calls have positional arguments, subscripts
are constant, and no node lies outside the subset. -/
def isSupported (e : Expr) : Bool :=
  match e with
  | .constant .. => true
  | .name _ access _ => access ≠ .del
  | .member .. | .unsupported .. => false
  | .binary _ left right _ => left.isSupported && right.isSupported
  | .unary _ operand _ => operand.isSupported
  | .boolean _ values _ => areSupported values
  | .compare left _ comparators _ => left.isSupported && areSupported comparators
  | .call func args keywords _ => func.isQualified && keywords.isEmpty && areSupported args
  | .subscript value index _ _ => value.isName && index.isConstantIndex
  | .list elements _ _ | .tuple elements _ _ => areSupported elements

def areSupported (es : List Expr) : Bool :=
  match es with
  | [] => true
  | e :: rest => e.isSupported && areSupported rest

end

mutual

/-- Whether a call is among the operations. Operands of a chain that have no operator are not. -/
def hasCall (e : Expr) : Bool :=
  match e with
  | .constant .. | .name .. | .member .. | .subscript .. | .unsupported .. => false
  | .binary _ left right _ => left.hasCall || right.hasCall
  | .unary _ operand _ => operand.hasCall
  | .boolean _ values _ => anyHasCall values
  | .compare left ops comparators _ => left.hasCall || chainHasCall ops comparators
  | .call .. => true
  | .list elements _ _ | .tuple elements _ _ => anyHasCall elements

def anyHasCall (es : List Expr) : Bool :=
  match es with
  | [] => false
  | e :: rest => e.hasCall || anyHasCall rest

def chainHasCall (ops : List CompareOp) (es : List Expr) : Bool :=
  match ops, es with
  | _ :: ops, e :: rest => e.hasCall || chainHasCall ops rest
  | _, _ => false

end

/-- A call whose arguments hold no further calls. -/
def isEffect : Expr → Bool
  | call _ args _ _ => args.all (!·.hasCall)
  | _ => false

/-- `range(start, end)`. -/
def isRange : Expr → Bool
  | call (name id _ _) [_, _] [] _ => id = "range"
  | _ => false

mutual

/-- What is left of an expression without its operators and displays. -/
def atoms (e : Expr) : List Expr :=
  match e with
  | .binary _ left right _ => left.atoms ++ right.atoms
  | .unary _ operand _ => operand.atoms
  | .boolean _ values _ => atomsOfEach values
  | .compare left _ comparators _ => left.atoms ++ atomsOfEach comparators
  | .list elements _ _ | .tuple elements _ _ => atomsOfEach elements
  | .constant .. | .name .. | .member .. | .call .. | .subscript .. | .unsupported .. => [e]

def atomsOfEach (es : List Expr) : List Expr :=
  match es with
  | [] => []
  | e :: rest => e.atoms ++ atomsOfEach rest

end

/-- A range, perhaps in displays or behind operators. -/
def amountsToRange (e : Expr) : Bool :=
  match e.atoms with
  | [a] => a.isRange
  | _ => false

theorem isQualified_of_callee (func : Expr) {line : Option Int} {x : String}
    (h : func.callee line = .ok x) : func.isQualified = true := by
  cases func with
  | name => rfl
  | member value attr access own =>
    obtain ⟨q, hq, -⟩ := except_bind_eq_ok.mp h
    exact isQualified_of_callee value hq
  | _ => cases h

/-- A qualified name has a dot in it. -/
theorem eq_name_of_callee {func : Expr} {line : Option Int} {x : String}
    (h : func.callee line = .ok x) (hx : '.' ∉ x.toList) :
    ∃ access own, func = .name x access own := by
  cases func with
  | name id access own =>
    obtain rfl := Except.ok.inj h
    exact ⟨access, own, rfl⟩
  | member value attr access own =>
    obtain ⟨q, -, h⟩ := except_bind_eq_ok.mp h
    obtain rfl := except_pure_eq_ok.mp h
    have hdot : '.' ∈ (q ++ "." ++ attr).toList := by simp
    exact absurd hdot hx
  | _ => cases h

theorem isEmpty_of_refuseKeywords {keywords : List String} {line : Option Int}
    (h : refuseKeywords keywords line = .ok ()) : keywords.isEmpty = true := by
  unfold refuseKeywords at h
  split at h
  · assumption
  · cases h

theorem isTarget_of_target {e : Expr} {v v' : Versions} {t : Target}
    (h : e.target v = .ok (t, v')) : e.isTarget = true := by
  cases e with
  | name => rfl
  | subscript value index access line =>
    obtain ⟨x, w, hs, -⟩ := bind_eq_ok.mp h
    obtain ⟨hx, -⟩ := Versioning.ofResult_eq_ok.mp hs
    obtain ⟨⟨_, _, rfl⟩, hi⟩ := subscriptBase_eq_ok hx
    exact hi
  | _ => cases h

theorem isTypeName_of_ofKeyword? {id : String} {d : Domain} {access : Access} {line : Option Int}
    (h : Domain.ofKeyword? id = some d) : (name id access line).isTypeName = true := by
  have hd : d.keyword = id := by simpa using List.find?_some h
  subst hd
  cases d <;> rfl

theorem isTypeName_of_name {e : Expr} {d : Domain}
    (h : (match e with
      | name id _ _ => Domain.ofKeyword? id
      | _ => none) = some d) : e.isTypeName = true := by
  cases e with
  | name id access line => exact isTypeName_of_ofKeyword? h
  | _ => cases h

theorem isAnnotation_of_annotatedDomain? {e : Expr} {d : Domain}
    (h : e.annotatedDomain? = some d) : e.isAnnotation = true := by
  have hname : e.unwrapList.isTypeName = true := isTypeName_of_name h
  unfold unwrapList at hname
  split at hname
  · exact hname
  · exact hname
  · cases e with
    | name => exact hname
    | _ => cases hname

theorem isAnnotation_of_annotatedDomain {typeExpr : Option Expr} {subject : String}
    {line : Option Int} {d : Domain} (h : annotatedDomain typeExpr subject line = .ok d) :
    typeExpr.any isAnnotation = true := by
  unfold annotatedDomain at h
  split at h
  · cases h
  · split at h
    · rename_i d hd
      exact isAnnotation_of_annotatedDomain? hd
    · cases h

mutual

theorem operands_supported (e : Expr) {v v' : Versions} {os : List Operand}
    (h : e.operands v = .ok (os, v')) : e.isSupported = true := by
  cases e with
  | constant l line => rfl
  | name id access line =>
    cases access with
    | del => cases h
    | _ => rfl
  | member value attr access line => cases h
  | binary op left right line =>
    obtain ⟨ls, w, rs, hls, hrs, -⟩ := binary_eq_ok h
    simp [isSupported, operands_supported left hls, operands_supported right hrs]
  | unary op operand line =>
    obtain ⟨ps, hps, -⟩ := unary_eq_ok h
    exact operands_supported operand hps
  | boolean op values line =>
    obtain ⟨oss, hoss, -⟩ := boolean_eq_ok h
    exact operandsOfEach_supported values hoss
  | compare left ops comparators line =>
    obtain ⟨ls, w, rs, hls, hrs, -⟩ := compare_eq_ok h
    simp [isSupported, operands_supported left hls, operandsOfEach_supported comparators hrs]
  | call func args keywords line =>
    obtain ⟨callee, oss, hkeywords, hcallee, hoss, -⟩ := call_eq_ok h
    simp [isSupported, isQualified_of_callee func hcallee, isEmpty_of_refuseKeywords hkeywords,
      operandsOfEach_supported args hoss]
  | subscript value index access line =>
    obtain ⟨-, x, own, own', rfl, hi, -, -⟩ := subscript_eq_ok h
    exact hi
  | list elements access line =>
    obtain ⟨-, oss, hoss, -⟩ := list_eq_ok h
    exact operandsOfEach_supported elements hoss
  | tuple elements access line =>
    obtain ⟨-, oss, hoss, -⟩ := tuple_eq_ok h
    exact operandsOfEach_supported elements hoss
  | unsupported nodeType line => cases h

theorem operandsOfEach_supported (es : List Expr) {v v' : Versions} {oss : List (List Operand)}
    (h : operandsOfEach es v = .ok (oss, v')) : areSupported es = true := by
  cases es with
  | nil => rfl
  | cons e rest =>
    obtain ⟨os, w, others, hos, hothers, -⟩ := operandsOfEach_cons_eq_ok h
    simp [areSupported, operands_supported e hos, operandsOfEach_supported rest hothers]

end

mutual

/-- Folding drops no call that belongs to an operator. -/
theorem operands_calls (e : Expr) {v v' : Versions} {os : List Operand}
    (h : e.operands v = .ok (os, v')) (hc : e.hasCall = true) :
    ∃ f, Input.function f ∈ Operand.leavesOf os := by
  cases e with
  | binary op left right line =>
    obtain ⟨ls, w, rs, hls, hrs, rfl⟩ := binary_eq_ok h
    rw [leavesOf_binaryOperands]
    rcases Bool.or_eq_true_iff.mp hc with hc | hc
    · obtain ⟨f, hf⟩ := operands_calls left hls hc
      exact ⟨f, List.mem_append_left _ hf⟩
    · obtain ⟨f, hf⟩ := operands_calls right hrs hc
      exact ⟨f, List.mem_append_right _ hf⟩
  | unary op operand line =>
    obtain ⟨ps, hps, rfl⟩ := unary_eq_ok h
    rw [leavesOf_unaryFold]
    exact operands_calls operand hps hc
  | boolean op values line =>
    obtain ⟨oss, hoss, rfl⟩ := boolean_eq_ok h
    rw [Operand.leavesOf_flatten]
    exact operandsOfEach_calls values hoss hc
  | compare left ops comparators line =>
    obtain ⟨ls, w, rs, hls, hrs, rfl⟩ := compare_eq_ok h
    have hparts := subset_leavesOf_compareOperands ops ls rs
    rcases Bool.or_eq_true_iff.mp hc with hc | hc
    · obtain ⟨f, hf⟩ := operands_calls left hls hc
      exact ⟨f, hparts (List.mem_append_left _ hf)⟩
    · obtain ⟨f, hf⟩ := operandsOfEach_chainCalls ops comparators hrs hc
      exact ⟨f, hparts (List.mem_append_right _ hf)⟩
  | call func args keywords line =>
    obtain ⟨callee, oss, -, -, -, rfl⟩ := call_eq_ok h
    exact ⟨callee, by simp [Operand.leavesOf, Operand.leaves]⟩
  | list elements access line =>
    obtain ⟨-, oss, hoss, rfl⟩ := list_eq_ok h
    rw [Operand.leavesOf_flatten]
    exact operandsOfEach_calls elements hoss hc
  | tuple elements access line =>
    obtain ⟨-, oss, hoss, rfl⟩ := tuple_eq_ok h
    rw [Operand.leavesOf_flatten]
    exact operandsOfEach_calls elements hoss hc
  | _ => cases hc

theorem operandsOfEach_calls (es : List Expr) {v v' : Versions} {oss : List (List Operand)}
    (h : operandsOfEach es v = .ok (oss, v')) (hc : anyHasCall es = true) :
    ∃ f, Input.function f ∈ Operand.leavesOfArguments oss := by
  cases es with
  | nil => cases hc
  | cons e rest =>
    obtain ⟨os, w, others, hos, hothers, rfl⟩ := operandsOfEach_cons_eq_ok h
    rcases Bool.or_eq_true_iff.mp hc with hc | hc
    · obtain ⟨f, hf⟩ := operands_calls e hos hc
      exact ⟨f, List.mem_append_left _ hf⟩
    · obtain ⟨f, hf⟩ := operandsOfEach_calls rest hothers hc
      exact ⟨f, List.mem_append_right _ hf⟩

theorem operandsOfEach_chainCalls (ops : List CompareOp) (es : List Expr) {v v' : Versions}
    {oss : List (List Operand)} (h : operandsOfEach es v = .ok (oss, v'))
    (hc : chainHasCall ops es = true) :
    ∃ f, Input.function f ∈ Operand.leavesOfArguments (oss.take ops.length) := by
  cases es with
  | nil => cases ops <;> cases hc
  | cons e rest =>
    cases ops with
    | nil => cases hc
    | cons op ops =>
      obtain ⟨os, w, others, hos, hothers, rfl⟩ := operandsOfEach_cons_eq_ok h
      rcases Bool.or_eq_true_iff.mp hc with hc | hc
      · obtain ⟨f, hf⟩ := operands_calls e hos hc
        exact ⟨f, List.mem_append_left _ hf⟩
      · obtain ⟨f, hf⟩ := operandsOfEach_chainCalls ops rest hothers hc
        exact ⟨f, List.mem_append_right _ hf⟩

end

/-- What one operand that is no literal comes from. -/
inductive Stands : Expr → Operand → Prop
  | variable {e : Expr} {r : Reference} : Stands e (.ref r)
  | call {func : Expr} {args : List Expr} {line : Option Int} {callee : String}
      {arguments : List (List Operand)} (hcallee : func.callee line = .ok callee)
      (hcount : args.length = arguments.length) :
      Stands (.call func args [] line) (.call callee arguments)

mutual

/-- Without a literal, operands are what their expression is left with. -/
theorem operands_stand (e : Expr) {v v' : Versions} {os : List Operand}
    (h : e.operands v = .ok (os, v')) (hos : ∀ l, Operand.literal l ∉ os) :
    List.Forall₂ Stands e.atoms os := by
  cases e with
  | constant l line =>
    obtain ⟨rfl, rfl⟩ := pure_eq_ok.mp h
    exact absurd (List.mem_singleton_self _) (hos l)
  | name id access line =>
    cases access with
    | load =>
      obtain ⟨r, w, -, h⟩ := bind_eq_ok.mp h
      obtain ⟨rfl, rfl⟩ := pure_eq_ok.mp h
      exact .cons .variable .nil
    | store =>
      obtain ⟨r, w, -, h⟩ := bind_eq_ok.mp h
      obtain ⟨rfl, rfl⟩ := pure_eq_ok.mp h
      exact .cons .variable .nil
    | del => cases h
  | member value attr access line => cases h
  | binary op left right line =>
    obtain ⟨ls, w, rs, hls, hrs, rfl⟩ := binary_eq_ok h
    rcases binaryOperands_eq op left right ls rs with he | ⟨⟨l, he⟩, -⟩
    · rw [he] at hos ⊢
      simp only [List.mem_append, not_or, forall_and] at hos
      exact List.rel_append (operands_stand left hls hos.1) (operands_stand right hrs hos.2)
    · rw [he] at hos
      exact absurd (List.mem_singleton_self _) (hos l)
  | unary op operand line =>
    obtain ⟨ps, hps, rfl⟩ := unary_eq_ok h
    rcases unaryFold_eq op ps with he | ⟨⟨l, he⟩, -⟩
    · rw [he] at hos ⊢
      exact operands_stand operand hps hos
    · rw [he] at hos
      exact absurd (List.mem_singleton_self _) (hos l)
  | boolean op values line =>
    obtain ⟨oss, hoss, rfl⟩ := boolean_eq_ok h
    exact operandsOfEach_stand values hoss hos
  | compare left ops comparators line =>
    obtain ⟨ls, w, rs, hls, hrs, rfl⟩ := compare_eq_ok h
    rcases compareOperands_eq ops ls rs with he | ⟨⟨l, he⟩, -⟩
    · rw [he] at hos ⊢
      simp only [List.mem_append, not_or, forall_and] at hos
      exact List.rel_append (operands_stand left hls hos.1)
        (operandsOfEach_stand comparators hrs hos.2)
    · rw [he] at hos
      exact absurd (List.mem_singleton_self _) (hos l)
  | call func args keywords line =>
    obtain ⟨callee, oss, hkeywords, hcallee, hoss, rfl⟩ := call_eq_ok h
    obtain rfl : keywords = [] := List.isEmpty_iff.mp (isEmpty_of_refuseKeywords hkeywords)
    exact .cons (.call hcallee (length_operandsOfEach hoss)) .nil
  | subscript value index access line =>
    obtain ⟨-, x, own, own', rfl, -, rfl, -⟩ := subscript_eq_ok h
    exact .cons .variable .nil
  | list elements access line =>
    obtain ⟨-, oss, hoss, rfl⟩ := list_eq_ok h
    exact operandsOfEach_stand elements hoss hos
  | tuple elements access line =>
    obtain ⟨-, oss, hoss, rfl⟩ := tuple_eq_ok h
    exact operandsOfEach_stand elements hoss hos
  | unsupported nodeType line => cases h

theorem operandsOfEach_stand (es : List Expr) {v v' : Versions} {oss : List (List Operand)}
    (h : operandsOfEach es v = .ok (oss, v')) (hos : ∀ l, Operand.literal l ∉ oss.flatten) :
    List.Forall₂ Stands (atomsOfEach es) oss.flatten := by
  cases es with
  | nil =>
    obtain ⟨rfl, rfl⟩ := pure_eq_ok.mp h
    exact .nil
  | cons e rest =>
    obtain ⟨os, w, others, hfirst, hothers, rfl⟩ := operandsOfEach_cons_eq_ok h
    simp only [List.flatten_cons, List.mem_append, not_or, forall_and] at hos
    exact List.rel_append (operands_stand e hfirst hos.1) (operandsOfEach_stand rest hothers hos.2)

end

/-- The header of a loop comes from one call of `range`, whatever is around it. -/
theorem amountsToRange_of_rangeOf {e : Expr} {v v' : Versions} {os : List Operand} {range : Range}
    {line : Option Int} (h : e.operands v = .ok (os, v'))
    (hrange : Lowering.rangeOf line os = .ok range) : e.amountsToRange = true := by
  obtain ⟨start, stop, rfl, -, -⟩ := Lowering.rangeOf_eq_ok hrange
  have hstand := operands_stand e h (by simp)
  unfold amountsToRange
  generalize e.atoms = atoms at hstand
  cases hstand with
  | cons ha hrest =>
    cases hrest
    cases ha with
    | call hcallee hcount =>
      obtain ⟨access, own, rfl⟩ := eq_name_of_callee hcallee (by decide)
      obtain ⟨a, b, rfl⟩ := List.length_eq_two.mp hcount
      rfl

theorem not_hasCall_of_effectInputs {args : List Expr} {v v' : Versions}
    {arguments : List (List Operand)} {input : List Reference} {line : Option Int}
    (h : operandsOfEach args v = .ok (arguments, v'))
    (hi : Lowering.effectInputs line arguments = .ok input) : ∀ e ∈ args, e.hasCall = false := by
  induction args generalizing v arguments input with
  | nil => exact List.forall_mem_nil _
  | cons e rest ih =>
    obtain ⟨os, w, oss, hos, hoss, rfl⟩ := operandsOfEach_cons_eq_ok h
    obtain ⟨hleaves, others, ho⟩ := Lowering.effectInputs_cons hi
    have hfirst : e.hasCall = false := by
      by_contra hc
      obtain ⟨f, hf⟩ := operands_calls e hos (by simpa using hc)
      exact hleaves f hf
    exact List.forall_mem_cons.mpr ⟨hfirst, ih hoss ho⟩

end Expr
end ProgramGraph
