import ProgramGraph.Proofs.Scopes.Seen
import ProgramGraph.Proofs.Subset.Expressions

/-! Variables that a program text reads before it assigns them. The operands of an expression cover
those of its text. -/
namespace ProgramGraph

open ProgramGraph.Graph

namespace Expr

mutual

/-- The variables that the text of an expression reads, in order. A qualified name that is called is
no variable, and operands without an operator have no text. -/
def free (e : Expr) : List String :=
  match e with
  | .constant .. | .unsupported .. => []
  | .name id _ _ => [id]
  | .member value _ _ _ => value.free
  | .binary _ left right _ => left.free ++ right.free
  | .unary _ operand _ => operand.free
  | .boolean _ values _ => freeOfEach values
  | .compare left ops comparators _ => left.free ++ freeOfChain ops comparators
  | .call func args _ _ => (if func.isQualified then [] else func.free) ++ freeOfEach args
  | .subscript value index _ _ => value.free ++ index.free
  | .list elements _ _ | .tuple elements _ _ => freeOfEach elements

def freeOfEach (es : List Expr) : List String :=
  match es with
  | [] => []
  | e :: rest => e.free ++ freeOfEach rest

def freeOfChain (ops : List CompareOp) (es : List Expr) : List String :=
  match ops, es with
  | _ :: ops, e :: rest => e.free ++ freeOfChain ops rest
  | _, _ => []

end

theorem free_of_isConstantIndex {index : Expr} (h : index.isConstantIndex = true) :
    index.free = [] := by
  unfold isConstantIndex at h
  split at h
  · rfl
  · rfl
  · cases h

mutual

/-- Folding takes no variable from the text, and operands are added only where the text has none. -/
theorem free_subset (e : Expr) {v v' : Versions} {os : List Operand}
    (h : e.operands v = .ok (os, v')) : e.free ⊆ namesOf (Operand.leavesOf os) := by
  cases e with
  | constant l line => exact List.nil_subset _
  | name id access line =>
    cases access with
    | load =>
      obtain ⟨r, w, hr, h⟩ := bind_eq_ok.mp h
      obtain ⟨rfl, -⟩ := Versioning.read_eq_ok.mp hr
      obtain ⟨rfl, -⟩ := pure_eq_ok.mp h
      exact List.Subset.refl _
    | store =>
      obtain ⟨r, w, hw, h⟩ := bind_eq_ok.mp h
      obtain ⟨rfl, -⟩ := Versioning.write_eq_ok.mp hw
      obtain ⟨rfl, -⟩ := pure_eq_ok.mp h
      exact List.Subset.refl _
    | del => cases h
  | member value attr access line => cases h
  | binary op left right line =>
    obtain ⟨ls, w, rs, hls, hrs, rfl⟩ := binary_eq_ok h
    rw [leavesOf_binaryOperands]
    exact append_subset_namesOf (free_subset left hls) (free_subset right hrs)
  | unary op operand line =>
    obtain ⟨ps, hps, rfl⟩ := unary_eq_ok h
    rw [leavesOf_unaryFold]
    exact free_subset operand hps
  | boolean op values line =>
    obtain ⟨oss, hoss, rfl⟩ := boolean_eq_ok h
    rw [Operand.leavesOf_flatten]
    exact freeOfEach_subset values hoss
  | compare left ops comparators line =>
    obtain ⟨ls, w, rs, hls, hrs, rfl⟩ := compare_eq_ok h
    have hboth := append_subset_namesOf (free_subset left hls)
      (freeOfChain_subset ops comparators hrs)
    exact List.Subset.trans hboth
      (List.filterMap_subset _ (subset_leavesOf_compareOperands ops ls rs))
  | call func args keywords line =>
    obtain ⟨callee, oss, -, hcallee, hoss, rfl⟩ := call_eq_ok h
    rw [free, if_pos (isQualified_of_callee func hcallee), List.nil_append, namesOf_call]
    exact freeOfEach_subset args hoss
  | subscript value index access line =>
    obtain ⟨-, x, own, own', rfl, hi, rfl, -⟩ := subscript_eq_ok h
    rw [free, free_of_isConstantIndex hi]
    exact List.Subset.refl _
  | list elements access line =>
    obtain ⟨-, oss, hoss, rfl⟩ := list_eq_ok h
    rw [Operand.leavesOf_flatten]
    exact freeOfEach_subset elements hoss
  | tuple elements access line =>
    obtain ⟨-, oss, hoss, rfl⟩ := tuple_eq_ok h
    rw [Operand.leavesOf_flatten]
    exact freeOfEach_subset elements hoss
  | unsupported nodeType line => cases h

theorem freeOfEach_subset (es : List Expr) {v v' : Versions} {oss : List (List Operand)}
    (h : operandsOfEach es v = .ok (oss, v')) :
    freeOfEach es ⊆ namesOf (Operand.leavesOfArguments oss) := by
  cases es with
  | nil => exact List.nil_subset _
  | cons e rest =>
    obtain ⟨os, w, others, hos, hothers, rfl⟩ := operandsOfEach_cons_eq_ok h
    rw [freeOfEach, Operand.leavesOfArguments]
    exact append_subset_namesOf (free_subset e hos) (freeOfEach_subset rest hothers)

theorem freeOfChain_subset (ops : List CompareOp) (es : List Expr) {v v' : Versions}
    {oss : List (List Operand)} (h : operandsOfEach es v = .ok (oss, v')) :
    freeOfChain ops es ⊆ namesOf (Operand.leavesOfArguments (oss.take ops.length)) := by
  cases es with
  | nil => cases ops <;> exact List.nil_subset _
  | cons e rest =>
    cases ops with
    | nil => exact List.nil_subset _
    | cons op ops =>
      obtain ⟨os, w, others, hos, hothers, rfl⟩ := operandsOfEach_cons_eq_ok h
      rw [freeOfChain, List.length_cons, List.take_succ_cons, Operand.leavesOfArguments]
      exact append_subset_namesOf (free_subset e hos) (freeOfChain_subset ops rest hothers)

end

/-- The array of an element. -/
def array? : Expr → Option String
  | subscript (name id _ _) _ _ _ => some id
  | _ => none

/-- The variables that the targets of an assignment read, one after another, and the return behind
them, without those that the statement has assigned by then. -/
def freeOfTargets (returned : String) (assigned : List String) : List Expr → List String
  | [] => [returned].filter (!assigned.contains ·)
  | name id _ _ :: rest => freeOfTargets returned (id :: assigned) rest
  | e :: rest => e.free.filter (!assigned.contains ·) ++ freeOfTargets returned assigned rest

theorem eq_of_isTarget {e : Expr} (h : e.isTarget = true) :
    (∃ x access line, e = name x access line) ∨
      ∃ x access own index access' line, e = subscript (name x access own) index access' line ∧
        index.isConstantIndex = true := by
  cases e with
  | name x access line => exact .inl ⟨x, access, line, rfl⟩
  | subscript value index access' line =>
    obtain ⟨hvalue, hindex⟩ := Bool.and_eq_true_iff.mp h
    cases value with
    | name x access own => exact .inr ⟨x, access, own, index, access', line, rfl, hindex⟩
    | _ => cases hvalue
  | _ => cases h

/-- Only elements read their arrays, unless no target assigns the variable that is returned. -/
theorem mem_freeOfTargets {returned x : String} {assigned : List String} {targets : List Expr}
    (ht : ∀ e ∈ targets, e.isTarget = true) (hx : x ∈ freeOfTargets returned assigned targets) :
    (∃ e ∈ targets, e.array? = some x) ∨
      x = returned ∧ x ∉ assigned ∧ ∀ access line, name x access line ∉ targets := by
  induction targets generalizing assigned with
  | nil =>
    right
    have hreturned : x = returned ∧ x ∉ assigned := by simpa [freeOfTargets] using hx
    exact ⟨hreturned.1, hreturned.2, fun _ _ => List.not_mem_nil⟩
  | cons e rest ih =>
    rw [List.forall_mem_cons] at ht
    -- what the rest reads counts unless the first target has assigned it
    have hlater : ∀ assigned', assigned ⊆ assigned' →
        (∀ access line, e = name x access line → x ∈ assigned') →
        x ∈ freeOfTargets returned assigned' rest →
        (∃ e' ∈ e :: rest, e'.array? = some x) ∨
          x = returned ∧ x ∉ assigned ∧ ∀ access line, name x access line ∉ e :: rest := by
      intro assigned' hsub hfirst hx
      rcases ih ht.2 hx with ⟨e', he, harray⟩ | ⟨hreturned, hassigned, hnames⟩
      · exact .inl ⟨e', List.mem_cons_of_mem _ he, harray⟩
      · right
        refine ⟨hreturned, fun hmem => hassigned (hsub hmem), fun access line hmem => ?_⟩
        rcases List.mem_cons.mp hmem with heq | hmem
        · exact hassigned (hfirst access line heq.symm)
        · exact hnames access line hmem
    cases eq_of_isTarget ht.1 with
    | inl hname =>
      obtain ⟨y, access, line, rfl⟩ := hname
      refine hlater (y :: assigned) (List.subset_cons_self _ _) ?_ hx
      intro access' line' heq
      obtain rfl := (name.inj heq).1
      exact List.mem_cons_self
    | inr helement =>
      obtain ⟨y, access, own, index, access', line, rfl, hi⟩ := helement
      rcases List.mem_append.mp hx with hx | hx
      · have hfree := List.mem_of_mem_filter hx
        have hxy : x = y := by simpa [free, free_of_isConstantIndex hi] using hfree
        exact .inl ⟨_, List.mem_cons_self, congrArg some hxy.symm⟩
      · exact hlater assigned (List.Subset.refl _) nofun hx

/-- A target is returned, so that the return itself reads nothing new. -/
theorem exists_array_of_mem_freeOfTargets {returned x : String} {own : Expr} {targets : List Expr}
    (ht : ∀ e ∈ targets, e.isTarget = true) (hown : own ∈ targets)
    (hreturned : own.targetName? = some returned) (hx : x ∈ freeOfTargets returned [] targets) :
    ∃ e ∈ targets, e.array? = some x := by
  rcases mem_freeOfTargets ht hx with harray | ⟨rfl, -, hnames⟩
  · exact harray
  · cases eq_of_isTarget (ht own hown) with
    | inl hname =>
      obtain ⟨y, access, line, rfl⟩ := hname
      obtain rfl := Option.some.inj hreturned
      exact absurd hown (hnames access line)
    | inr helement =>
      obtain ⟨y, access, own', index, access', line, rfl, -⟩ := helement
      exact ⟨_, hown, hreturned⟩

end Expr
end ProgramGraph
