import ProgramGraph.Proofs.Mentions
import ProgramGraph.Proofs.Retention

/-! What a scope has seen behind a block: what it had seen before, and the variables that the items of
the block name. -/
namespace ProgramGraph

open ProgramGraph.Graph Lowering LoweringState

/-- Nothing is read without a trace: an assignment has a target, and all comparators that a
comparison reads belong to it. -/
def Stmt.IsComplete : Stmt → Prop
  | .assign targets value _ => targets ≠ [] ∧ value.All Expr.isPaired
  | .annAssign _ _ value _ => ∀ e ∈ initialValue? value, e.All Expr.isPaired
  | .branch test _ _ _ => test.All Expr.isPaired
  | .loop _ iter _ _ _ => iter.All Expr.isPaired
  | .expr value _ => value.All Expr.isPaired
  | .functionDef .. | .unsupported .. => True

instance : DecidablePred Stmt.IsComplete := fun t =>
  match t with
  | .assign targets value _ =>
    inferInstanceAs (Decidable (targets ≠ [] ∧ value.All Expr.isPaired))
  | .annAssign _ _ value _ =>
    inferInstanceAs (Decidable (∀ e ∈ initialValue? value, e.All Expr.isPaired))
  | .branch test _ _ _ => inferInstanceAs (Decidable (test.All Expr.isPaired))
  | .loop _ iter _ _ _ => inferInstanceAs (Decidable (iter.All Expr.isPaired))
  | .expr value _ => inferInstanceAs (Decidable (value.All Expr.isPaired))
  | .functionDef .. | .unsupported .. => isTrue trivial

namespace Stmt

/-- The statements of a block are complete, at any depth. -/
def AllComplete (block : List Stmt) : Prop := ∀ t ∈ nestedIn block, t.IsComplete

namespace AllComplete
variable {t : Stmt} {rest body orelse : List Stmt} {line : Option Int}

theorem cons (h : AllComplete (t :: rest)) : (∀ u ∈ t.nested, u.IsComplete) ∧ AllComplete rest :=
  List.forall_mem_append.mp h

theorem head (h : AllComplete (t :: rest)) : t.IsComplete :=
  h.cons.1 t (by cases t <;> exact List.mem_cons_self)

theorem branch {test : Expr} (h : AllComplete (.branch test body orelse line :: rest)) :
    AllComplete body ∧ AllComplete orelse ∧ AllComplete rest := by
  obtain ⟨hbody, horelse⟩ := List.forall_mem_append.mp (List.forall_mem_cons.mp h.cons.1).2
  exact ⟨hbody, horelse, h.cons.2⟩

theorem loop {target iter : Expr}
    (h : AllComplete (.loop target iter body orelse line :: rest)) :
    AllComplete body ∧ AllComplete rest :=
  ⟨(List.forall_mem_append.mp (List.forall_mem_cons.mp h.cons.1).2).1, h.cons.2⟩

theorem definition {name : String} {parameters : List Parameter}
    (h : AllComplete (.functionDef name parameters body line :: rest)) :
    AllComplete body ∧ AllComplete rest :=
  ⟨(List.forall_mem_cons.mp h.cons.1).2, h.cons.2⟩

end AllComplete
end Stmt

/-- The variables that items name, at any version. -/
def mentioned (items : List Item) : List String :=
  items.flatMap fun i => (i.reads ++ i.write.toList).map Reference.name

theorem mentioned_append (is js : List Item) : mentioned (is ++ js) = mentioned is ++ mentioned js :=
  List.flatMap_append

/-- The variables of inputs. -/
def namesOf (inputs : List Input) : List String := inputs.filterMap Input.versionOf?

theorem mem_namesOf {inputs : List Input} {x : String} :
    x ∈ namesOf inputs ↔ ∃ r, Input.ref r ∈ inputs ∧ r.name = x := by
  unfold namesOf
  rw [List.mem_filterMap]
  constructor
  · rintro ⟨i, hi, hx⟩
    cases i with
    | ref r => exact ⟨r, hi, Option.some.inj hx⟩
    | function => cases hx
  · rintro ⟨r, hr, rfl⟩
    exact ⟨.ref r, hr, rfl⟩

namespace Versions
variable {exact : Prop} {v v' v'' : Versions} {xs ys : List String}

/-- Some variables are seen afterwards, and in the exact case no others besides those seen before. -/
structure Marks (exact : Prop) (v : Versions) (xs : List String) (v' : Versions) : Prop
    extends Covers v xs v' where
  only : exact → ∀ x, v'.Seen x → v.Seen x ∨ x ∈ xs

theorem Marks.refl (v : Versions) : Marks exact v [] v := ⟨(Extends.refl v).covers, fun _ _ => .inl⟩

theorem Marks.append (h : Marks exact v xs v') (h' : Marks exact v' ys v'') :
    Marks exact v (xs ++ ys) v'' where
  toCovers := h.toCovers.append h'.toCovers
  only he x hx := by
    rw [List.mem_append, ← or_assoc]
    exact (h'.only he x hx).imp_left (h.only he x)

/-- The variables may be given in another way. -/
theorem Marks.of_subset (h : Marks exact v xs v') (hsub : ys ⊆ xs) (hall : exact → xs ⊆ ys) :
    Marks exact v ys v' where
  toExtends := h.toExtends
  covered x hx := h.covered x (hsub hx)
  only he x hx := (h.only he x hx).imp_right fun hm => hall he hm

theorem marks_insert (v : Versions) (x : String) (n : Int) (next : Table Int) :
    Marks exact v [x] { v with latest := v.latest.insert x n, next := next } where
  toCovers := covers_insert v x n next
  only _ y hy := by
    unfold Seen at hy ⊢
    rw [Table.get?_insert] at hy
    split at hy
    · exact .inr (by simpa)
    · exact .inl hy

theorem marks_pin (v : Versions) (x : String) (n : Int) : Marks exact v [x] (v.pin x n) :=
  marks_insert v x n v.next

theorem marks_write (v : Versions) (x : String) : Marks exact v [x] (v.write x).2 :=
  marks_insert v x _ _

theorem marks_read (v : Versions) (x : String) : Marks exact v [x] (v.read x).2 where
  toExtends := extends_read v x
  covered y hy := by
    obtain rfl := List.mem_singleton.mp hy
    unfold Seen
    rw [get?_latest_read, if_pos rfl]
    rfl
  only _ y hy := by
    unfold Seen at hy ⊢
    rw [get?_latest_read] at hy
    split at hy
    · exact .inr (by simpa)
    · exact .inl hy

theorem Accesses.marks {us : List (String × Access)} (h : v.Accesses us v') :
    Marks exact v (us.map Prod.fst) v' := by
  induction h with
  | nil => exact .refl _
  | read v x => exact marks_read v x
  | write v x => exact marks_write v x
  | append _ _ ih ih' =>
    rw [List.map_append]
    exact ih.append ih'

end Versions

open Versions

namespace Expr
variable {exact : Prop}

theorem Shows.namesOf_subset {v : Versions} {us : List (String × Access)} {leaves : List Input}
    (h : Shows v us leaves) : namesOf leaves ⊆ us.map Prod.fst := by
  intro x hx
  obtain ⟨r, hr, rfl⟩ := mem_namesOf.mp hx
  obtain ⟨access, hu, -⟩ := h r hr
  exact List.mem_map.mpr ⟨_, hu, rfl⟩

theorem namesOf_append (is js : List Input) : namesOf (is ++ js) = namesOf is ++ namesOf js :=
  List.filterMap_append

theorem append_subset_namesOf {xs ys : List String} {is js : List Input} (h : xs ⊆ namesOf is)
    (h' : ys ⊆ namesOf js) : xs ++ ys ⊆ namesOf (is ++ js) := by
  rw [namesOf_append]
  exact List.append_subset.mpr ⟨List.subset_append_of_subset_left _ h,
    List.subset_append_of_subset_right _ h'⟩

/-- A callee is no variable. -/
theorem namesOf_call (callee : String) (arguments : List (List Operand)) :
    namesOf (Operand.leavesOf [.call callee arguments]) =
      namesOf (Operand.leavesOfArguments arguments) := by
  simp only [Operand.leavesOf, Operand.leaves, List.append_nil]
  rfl

theorem namesOf_eq (leaves : List Input) :
    namesOf leaves = (leaves.map Source.ofInput).filterMap Source.variable? := by
  unfold namesOf
  rw [List.filterMap_map]
  exact List.filterMap_congr fun i _ => i.versionOf?_eq

/-- Folding leaves no variable out, except behind an only operator. -/
theorem namesOf_operands (e : Expr) {v v' : Versions} {os : List Operand}
    (h : e.operands v = .ok (os, v')) (hp : e.All isPaired) :
    namesOf (Operand.leavesOf os) = e.uses.map Prod.fst := by
  rw [namesOf_eq, sources_operands e h hp, mentions_variables]

theorem namesOf_operandsOfEach (es : List Expr) {v v' : Versions} {oss : List (List Operand)}
    (h : operandsOfEach es v = .ok (oss, v')) (hp : ∀ e ∈ es, e.All isPaired) :
    namesOf (Operand.leavesOfArguments oss) = (usesOfEach es).map Prod.fst := by
  rw [namesOf_eq, sources_operandsOfEach es h hp, mentionsOfEach_variables]

/-- Operands mark the variables of their leaves. -/
theorem operands_mark (e : Expr) {v v' : Versions} {os : List Operand}
    (h : e.operands v = .ok (os, v')) (hp : exact → e.All isPaired) :
    v.Marks exact (namesOf (Operand.leavesOf os)) v' := by
  obtain ⟨ha, hs⟩ := e.operands_accesses h
  refine ha.marks.of_subset hs.namesOf_subset fun he => ?_
  rw [namesOf_operands e h (hp he)]
  exact List.Subset.refl _

theorem operandsOfEach_mark (es : List Expr) {v v' : Versions} {oss : List (List Operand)}
    (h : operandsOfEach es v = .ok (oss, v')) (hp : exact → ∀ e ∈ es, e.All isPaired) :
    v.Marks exact (namesOf (Operand.leavesOfArguments oss)) v' := by
  obtain ⟨ha, hs⟩ := operandsOfEach_accesses es h
  refine ha.marks.of_subset hs.namesOf_subset fun he => ?_
  rw [namesOf_operandsOfEach es h (hp he)]
  exact List.Subset.refl _

end Expr
end ProgramGraph
