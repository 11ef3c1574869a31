import ProgramGraph.Proofs.Computation
import ProgramGraph.Proofs.Names

/-! Operands of expressions: which variables they access, and which versions they show. In reading
position they write none. -/
namespace ProgramGraph

open ProgramGraph.Graph (Input)

namespace Versions

/-- Reads of some variables: the other ones are not even pinned. -/
structure Reads (v : Versions) (xs : List String) (v' : Versions) : Prop extends Same v v' where
  seen : ∀ x, (v.latest.get? x).isSome → (v'.latest.get? x).isSome
  latest : ∀ x, x ∉ xs → v'.latest.get? x = v.latest.get? x

theorem Reads.nil (v : Versions) : Reads v [] v := ⟨Same.refl v, fun _ h => h, fun _ _ => rfl⟩

theorem Reads.read (v : Versions) (x : String) : Reads v [x] (v.read x).2 where
  toSame := same_read v x
  seen y hy := by
    rw [get?_latest_read]
    split
    · rfl
    · exact hy
  latest y hy := by
    rw [get?_latest_read, if_neg (by simpa using hy)]

theorem Reads.append {v v' v'' : Versions} {xs ys : List String} (h : Reads v xs v')
    (h' : Reads v' ys v'') : Reads v (xs ++ ys) v'' where
  toSame := h.toSame.trans h'.toSame
  seen x hx := h'.seen x (h.seen x hx)
  latest x hx := by
    rw [List.mem_append, not_or] at hx
    rw [h'.latest x hx.2, h.latest x hx.1]

/-- Reads and writes of variables, one after another. -/
inductive Accesses : Versions → List (String × Access) → Versions → Prop
  | nil {v : Versions} : Accesses v [] v
  | read (v : Versions) (x : String) : Accesses v [(x, .load)] (v.read x).2
  | write (v : Versions) (x : String) : Accesses v [(x, .store)] (v.write x).2
  | append {v v' v'' : Versions} {us ws : List (String × Access)} (h : Accesses v us v')
      (h' : Accesses v' ws v'') : Accesses v (us ++ ws) v''

/-- Accesses that load are reads. -/
theorem Accesses.reads {v v' : Versions} {us : List (String × Access)} (h : Accesses v us v')
    (hl : ∀ u ∈ us, u.2 = .load) : Reads v (us.map Prod.fst) v' := by
  induction h with
  | nil => exact .nil _
  | read v x => exact .read v x
  | write v x => cases hl _ (List.mem_singleton_self _)
  | append _ _ ih ih' =>
    rw [List.forall_mem_append] at hl
    rw [List.map_append]
    exact (ih hl.1).append (ih' hl.2)

end Versions

namespace Operand

theorem leavesOf_append (os ps : List Operand) :
    leavesOf (os ++ ps) = leavesOf os ++ leavesOf ps := by
  induction os with
  | nil => rfl
  | cons o os ih => simp [leavesOf, ih]

theorem leavesOf_flatten (oss : List (List Operand)) :
    leavesOf oss.flatten = leavesOfArguments oss := by
  induction oss with
  | nil => rfl
  | cons os oss ih => simp [leavesOfArguments, leavesOf_append, ih]

theorem leavesOfArguments_take_subset (n : Nat) (oss : List (List Operand)) :
    leavesOfArguments (oss.take n) ⊆ leavesOfArguments oss := by
  intro i hi
  rw [← leavesOf_flatten] at hi ⊢
  rw [← List.take_append_drop n oss, List.flatten_append, leavesOf_append]
  exact List.mem_append_left _ hi

theorem leavesOf_of_singleLiteral? {os : List Operand} {l : Literal}
    (h : singleLiteral? os = some l) : leavesOf os = [] := by
  unfold singleLiteral? at h
  split at h
  · rfl
  · cases h

end Operand

namespace Expr

open Operand

/-- Folding takes place over literals only. -/
theorem unaryFold_eq (op : UnaryOp) (os : List Operand) :
    let folded := foldOr ((singleLiteral? os).bind (Literal.foldUnary? op)) os
    folded = os ∨ (∃ l, folded = [.literal l]) ∧ leavesOf os = [] := by
  dsimp only
  cases h : (singleLiteral? os).bind (Literal.foldUnary? op) with
  | none => exact .inl rfl
  | some l =>
    obtain ⟨a, ha, -⟩ := Option.bind_eq_some_iff.mp h
    exact .inr ⟨⟨l, rfl⟩, leavesOf_of_singleLiteral? ha⟩

theorem binaryOperands_eq (op : BinaryOp) (left right : Expr) (ls rs : List Operand) :
    binaryOperands op left right ls rs = ls ++ rs ∨
      (∃ l, binaryOperands op left right ls rs = [.literal l]) ∧
        leavesOf ls = [] ∧ leavesOf rs = [] := by
  unfold binaryOperands
  dsimp only
  generalize h : (do
    guard (!left.isSequence && !right.isSequence)
    Literal.foldBinary? op (← singleLiteral? ls) (← singleLiteral? rs)) = folded
  cases folded with
  | none => exact .inl rfl
  | some l =>
    obtain ⟨-, -, h⟩ := Option.bind_eq_some_iff.mp h
    obtain ⟨a, ha, h⟩ := Option.bind_eq_some_iff.mp h
    obtain ⟨b, hb, -⟩ := Option.bind_eq_some_iff.mp h
    exact .inr ⟨⟨l, rfl⟩, leavesOf_of_singleLiteral? ha, leavesOf_of_singleLiteral? hb⟩

/-- A chain that folds loses the operands behind its first comparator, which belong to no
operator. -/
theorem compareOperands_eq (ops : List CompareOp) (ls : List Operand) (rs : List (List Operand)) :
    compareOperands ops ls rs = ls ++ rs.flatten ∨
      (∃ l, compareOperands ops ls rs = [.literal l]) ∧ leavesOf ls = [] ∧
        ∃ op r rest, ops = [op] ∧ rs = r :: rest ∧ leavesOf r = [] := by
  unfold compareOperands
  dsimp only
  split
  · rename_i op r rest
    generalize h : (do
      Literal.foldCompare? op (← singleLiteral? ls) (← singleLiteral? r)) = folded
    cases folded with
    | none => exact .inl rfl
    | some l =>
      obtain ⟨a, ha, h⟩ := Option.bind_eq_some_iff.mp h
      obtain ⟨b, hb, -⟩ := Option.bind_eq_some_iff.mp h
      exact .inr ⟨⟨l, rfl⟩, leavesOf_of_singleLiteral? ha, op, r, rest, rfl, rfl,
        leavesOf_of_singleLiteral? hb⟩
  · exact .inl rfl

/-- What folds has no leaves, so that none is lost. -/
theorem leavesOf_binaryOperands (op : BinaryOp) (left right : Expr) (ls rs : List Operand) :
    leavesOf (binaryOperands op left right ls rs) = leavesOf ls ++ leavesOf rs := by
  rcases binaryOperands_eq op left right ls rs with he | ⟨⟨l, he⟩, hl, hr⟩
  · rw [he, leavesOf_append]
  · rw [he, hl, hr]
    rfl

theorem leavesOf_unaryFold (op : UnaryOp) (os : List Operand) :
    leavesOf (foldOr ((singleLiteral? os).bind (Literal.foldUnary? op)) os) = leavesOf os := by
  rcases unaryFold_eq op os with he | ⟨⟨l, he⟩, hnone⟩
  · rw [he]
  · rw [he, hnone]
    rfl

theorem leavesOf_compareOperands_subset (ops : List CompareOp) (ls : List Operand)
    (rs : List (List Operand)) :
    leavesOf (compareOperands ops ls rs) ⊆ leavesOf ls ++ leavesOfArguments rs := by
  rcases compareOperands_eq ops ls rs with he | ⟨⟨l, he⟩, -⟩
  · rw [he, leavesOf_append, leavesOf_flatten]
    exact List.Subset.refl _
  · rw [he]
    exact List.nil_subset _

/-- No leaf is lost of the comparators that belong to operators. -/
theorem subset_leavesOf_compareOperands (ops : List CompareOp) (ls : List Operand)
    (rs : List (List Operand)) :
    leavesOf ls ++ leavesOfArguments (rs.take ops.length) ⊆
      leavesOf (compareOperands ops ls rs) := by
  rcases compareOperands_eq ops ls rs with he | ⟨-, hl, op, r, rest, rfl, rfl, hr⟩
  · rw [he, leavesOf_append, leavesOf_flatten]
    exact List.append_subset.mpr ⟨List.subset_append_left _ _,
      List.subset_append_of_subset_right _ (leavesOfArguments_take_subset _ _)⟩
  · have hnone : leavesOf ls ++ leavesOfArguments [r] = [] := by
      rw [hl, leavesOfArguments, hr]
      rfl
    exact hnone ▸ List.nil_subset _

/-- A subscript with a constant index stands for the whole array. -/
theorem subscriptBase_eq_ok {value index : Expr} {line : Option Int} {x : String}
    (h : subscriptBase value index line = .ok x) :
    (∃ access own, value = .name x access own) ∧ index.isConstantIndex = true := by
  unfold subscriptBase at h
  split at h
  · split at h
    · rename_i hi
      injection h with h
      subst h
      exact ⟨⟨_, _, rfl⟩, hi⟩
    · cases h
  · cases h

section
variable {v v' : Versions} {os : List Operand} {line : Option Int}

theorem binary_eq_ok {op : BinaryOp} {left right : Expr}
    (h : (binary op left right line).operands v = .ok (os, v')) :
    ∃ ls w rs, left.operands v = .ok (ls, w) ∧ right.operands w = .ok (rs, v') ∧
      binaryOperands op left right ls rs = os := by
  obtain ⟨ls, w, hls, h⟩ := bind_eq_ok.mp h
  obtain ⟨rs, w', hrs, h⟩ := bind_eq_ok.mp h
  obtain ⟨rfl, rfl⟩ := pure_eq_ok.mp h
  exact ⟨ls, w, rs, hls, hrs, rfl⟩

theorem unary_eq_ok {op : UnaryOp} {operand : Expr}
    (h : (unary op operand line).operands v = .ok (os, v')) :
    ∃ ps, operand.operands v = .ok (ps, v') ∧
      foldOr ((singleLiteral? ps).bind (Literal.foldUnary? op)) ps = os := by
  obtain ⟨ps, w, hps, h⟩ := bind_eq_ok.mp h
  obtain ⟨rfl, rfl⟩ := pure_eq_ok.mp h
  exact ⟨ps, hps, rfl⟩

theorem boolean_eq_ok {op : BoolOp} {values : List Expr}
    (h : (boolean op values line).operands v = .ok (os, v')) :
    ∃ oss, operandsOfEach values v = .ok (oss, v') ∧ oss.flatten = os := by
  obtain ⟨oss, w, hoss, h⟩ := bind_eq_ok.mp h
  obtain ⟨rfl, rfl⟩ := pure_eq_ok.mp h
  exact ⟨oss, hoss, rfl⟩

theorem compare_eq_ok {left : Expr} {ops : List CompareOp} {comparators : List Expr}
    (h : (compare left ops comparators line).operands v = .ok (os, v')) :
    ∃ ls w rs, left.operands v = .ok (ls, w) ∧ operandsOfEach comparators w = .ok (rs, v') ∧
      compareOperands ops ls rs = os := by
  obtain ⟨ls, w, hls, h⟩ := bind_eq_ok.mp h
  obtain ⟨rs, w', hrs, h⟩ := bind_eq_ok.mp h
  obtain ⟨rfl, rfl⟩ := pure_eq_ok.mp h
  exact ⟨ls, w, rs, hls, hrs, rfl⟩

theorem call_eq_ok {func : Expr} {args : List Expr} {keywords : List String}
    (h : (call func args keywords line).operands v = .ok (os, v')) :
    ∃ callee oss, refuseKeywords keywords line = .ok () ∧ func.callee line = .ok callee ∧
      operandsOfEach args v = .ok (oss, v') ∧ [.call callee oss] = os := by
  obtain ⟨_, w, hk, h⟩ := bind_eq_ok.mp h
  obtain ⟨hkeywords, rfl⟩ := Versioning.ofResult_eq_ok.mp hk
  obtain ⟨callee, w, hc, h⟩ := bind_eq_ok.mp h
  obtain ⟨hcallee, rfl⟩ := Versioning.ofResult_eq_ok.mp hc
  obtain ⟨oss, w, hoss, h⟩ := bind_eq_ok.mp h
  obtain ⟨rfl, rfl⟩ := pure_eq_ok.mp h
  exact ⟨callee, oss, hkeywords, hcallee, hoss, rfl⟩

theorem subscript_eq_ok {value index : Expr} {access : Access}
    (h : (subscript value index access line).operands v = .ok (os, v')) :
    access = .load ∧ ∃ x own own', value = .name x own own' ∧ index.isConstantIndex = true ∧
      [.ref ⟨x, v.current x⟩] = os ∧ (v.read x).2 = v' := by
  cases access with
  | load =>
    obtain ⟨x, w, hs, h⟩ := bind_eq_ok.mp h
    obtain ⟨hx, rfl⟩ := Versioning.ofResult_eq_ok.mp hs
    obtain ⟨r, w, hr, h⟩ := bind_eq_ok.mp h
    obtain ⟨rfl, rfl⟩ := Versioning.read_eq_ok.mp hr
    obtain ⟨rfl, rfl⟩ := pure_eq_ok.mp h
    obtain ⟨⟨own, own', rfl⟩, hi⟩ := subscriptBase_eq_ok hx
    exact ⟨rfl, x, own, own', rfl, hi, rfl, rfl⟩
  | store => cases h
  | del => cases h

theorem list_eq_ok {elements : List Expr} {access : Access}
    (h : (list elements access line).operands v = .ok (os, v')) :
    access = .load ∧ ∃ oss, operandsOfEach elements v = .ok (oss, v') ∧ oss.flatten = os := by
  cases access with
  | load =>
    obtain ⟨oss, w, hoss, h⟩ := bind_eq_ok.mp h
    obtain ⟨rfl, rfl⟩ := pure_eq_ok.mp h
    exact ⟨rfl, oss, hoss, rfl⟩
  | store => cases h
  | del => cases h

theorem tuple_eq_ok {elements : List Expr} {access : Access}
    (h : (tuple elements access line).operands v = .ok (os, v')) :
    access = .load ∧ ∃ oss, operandsOfEach elements v = .ok (oss, v') ∧ oss.flatten = os := by
  cases access with
  | load =>
    obtain ⟨oss, w, hoss, h⟩ := bind_eq_ok.mp h
    obtain ⟨rfl, rfl⟩ := pure_eq_ok.mp h
    exact ⟨rfl, oss, hoss, rfl⟩
  | store => cases h
  | del => cases h

theorem operandsOfEach_cons_eq_ok {e : Expr} {rest : List Expr} {oss : List (List Operand)}
    (h : operandsOfEach (e :: rest) v = .ok (oss, v')) :
    ∃ os w others, e.operands v = .ok (os, w) ∧ operandsOfEach rest w = .ok (others, v') ∧
      os :: others = oss := by
  obtain ⟨os, w, hos, h⟩ := bind_eq_ok.mp h
  obtain ⟨others, w', hothers, h⟩ := bind_eq_ok.mp h
  obtain ⟨rfl, rfl⟩ := pure_eq_ok.mp h
  exact ⟨os, w, others, hos, hothers, rfl⟩

end

/-- What the leaves of operands show: variables that are used and, where all uses are loads, their
versions from before them. -/
def Shows (v : Versions) (uses : List (String × Access)) (leaves : List Input) : Prop :=
  ∀ r, Input.ref r ∈ leaves → ∃ access, (r.name, access) ∈ uses ∧
    ((∀ u ∈ uses, u.2 = .load) → r.index = v.current r.name)

namespace Shows
variable {v v' : Versions} {us ws : List (String × Access)} {is js : List Input}

theorem nil (v : Versions) (us : List (String × Access)) : Shows v us [] := nofun

theorem single {x : String} {access : Access} {n : Int}
    (h : access = .load → n = v.current x) : Shows v [(x, access)] (leavesOf [.ref ⟨x, n⟩]) := by
  intro r hr
  obtain rfl : r = ⟨x, n⟩ := by simpa [leavesOf, leaves] using hr
  exact ⟨access, List.mem_singleton_self _, fun hl => h (hl _ (List.mem_singleton_self _))⟩

theorem append (h : Shows v us is) (ha : v.Accesses us v') (h' : Shows v' ws js) :
    Shows v (us ++ ws) (is ++ js) := by
  intro r hr
  rw [List.forall_mem_append]
  rcases List.mem_append.mp hr with hr | hr
  · obtain ⟨access, hu, hi⟩ := h r hr
    exact ⟨access, List.mem_append_left _ hu, fun hl => hi hl.1⟩
  · obtain ⟨access, hu, hi⟩ := h' r hr
    exact ⟨access, List.mem_append_right _ hu,
      fun hl => (hi hl.2).trans ((ha.reads hl.1).current _)⟩

end Shows

mutual

/-- The operands of an expression access the variables that it uses, in order. -/
theorem operands_accesses (e : Expr) {v v' : Versions} {os : List Operand}
    (h : e.operands v = .ok (os, v')) : v.Accesses e.uses v' ∧ Shows v e.uses (leavesOf os) := by
  cases e with
  | constant l line =>
    obtain ⟨rfl, rfl⟩ := pure_eq_ok.mp h
    exact ⟨.nil, .nil _ _⟩
  | name id access line =>
    cases access with
    | load =>
      obtain ⟨r, w, hr, h⟩ := bind_eq_ok.mp h
      obtain ⟨rfl, rfl⟩ := Versioning.read_eq_ok.mp hr
      obtain ⟨rfl, rfl⟩ := pure_eq_ok.mp h
      exact ⟨.read v id, .single fun _ => rfl⟩
    | store =>
      obtain ⟨r, w, hw, h⟩ := bind_eq_ok.mp h
      obtain ⟨rfl, rfl⟩ := Versioning.write_eq_ok.mp hw
      obtain ⟨rfl, rfl⟩ := pure_eq_ok.mp h
      exact ⟨.write v id, .single nofun⟩
    | del => cases h
  | member value attr access line => cases h
  | binary op left right line =>
    obtain ⟨ls, w, rs, hls, hrs, rfl⟩ := binary_eq_ok h
    obtain ⟨ha, hi⟩ := operands_accesses left hls
    obtain ⟨ha', hi'⟩ := operands_accesses right hrs
    rw [leavesOf_binaryOperands]
    exact ⟨ha.append ha', hi.append ha hi'⟩
  | unary op operand line =>
    obtain ⟨ps, hps, rfl⟩ := unary_eq_ok h
    rw [leavesOf_unaryFold]
    exact operands_accesses operand hps
  | boolean op values line =>
    obtain ⟨oss, hoss, rfl⟩ := boolean_eq_ok h
    rw [leavesOf_flatten]
    exact operandsOfEach_accesses values hoss
  | compare left ops comparators line =>
    obtain ⟨ls, w, rs, hls, hrs, rfl⟩ := compare_eq_ok h
    obtain ⟨ha, hi⟩ := operands_accesses left hls
    obtain ⟨ha', hi'⟩ := operandsOfEach_accesses comparators hrs
    refine ⟨ha.append ha', fun r hr => ?_⟩
    exact hi.append ha hi' r (leavesOf_compareOperands_subset ops ls rs hr)
  | call func args keywords line =>
    obtain ⟨callee, oss, -, -, hoss, rfl⟩ := call_eq_ok h
    obtain ⟨ha, hi⟩ := operandsOfEach_accesses args hoss
    refine ⟨ha, fun r hr => hi r ?_⟩
    simpa [leavesOf, leaves] using hr
  | subscript value index access line =>
    obtain ⟨rfl, x, own, own', rfl, -, rfl, rfl⟩ := subscript_eq_ok h
    exact ⟨.read v x, .single fun _ => rfl⟩
  | list elements access line =>
    obtain ⟨-, oss, hoss, rfl⟩ := list_eq_ok h
    rw [leavesOf_flatten]
    exact operandsOfEach_accesses elements hoss
  | tuple elements access line =>
    obtain ⟨-, oss, hoss, rfl⟩ := tuple_eq_ok h
    rw [leavesOf_flatten]
    exact operandsOfEach_accesses elements hoss
  | unsupported nodeType line => cases h

theorem operandsOfEach_accesses (es : List Expr) {v v' : Versions} {oss : List (List Operand)}
    (h : operandsOfEach es v = .ok (oss, v')) :
    v.Accesses (usesOfEach es) v' ∧ Shows v (usesOfEach es) (leavesOfArguments oss) := by
  cases es with
  | nil =>
    obtain ⟨rfl, rfl⟩ := pure_eq_ok.mp h
    exact ⟨.nil, .nil _ _⟩
  | cons e rest =>
    obtain ⟨os, w, others, hos, hothers, rfl⟩ := operandsOfEach_cons_eq_ok h
    obtain ⟨ha, hi⟩ := operands_accesses e hos
    obtain ⟨ha', hi'⟩ := operandsOfEach_accesses rest hothers
    exact ⟨ha.append ha', hi.append ha hi'⟩

end

theorem length_operandsOfEach {es : List Expr} {v v' : Versions} {oss : List (List Operand)}
    (h : operandsOfEach es v = .ok (oss, v')) : es.length = oss.length := by
  induction es generalizing v oss with
  | nil =>
    obtain ⟨rfl, rfl⟩ := pure_eq_ok.mp h
    rfl
  | cons e rest ih =>
    obtain ⟨os, w, others, -, hothers, rfl⟩ := operandsOfEach_cons_eq_ok h
    rw [List.length_cons, List.length_cons, ih hothers]

/-- What the leaves of operands say: variables that the expression uses, at their versions. -/
def LeavesAt (v : Versions) (uses : List (String × Access)) (leaves : List Input) : Prop :=
  ∀ r, Input.ref r ∈ leaves → (r.name, Access.load) ∈ uses ∧ r.index = v.current r.name

theorem Shows.leavesAt {v : Versions} {us : List (String × Access)} {is : List Input}
    (h : Shows v us is) (hl : ∀ u ∈ us, u.2 = .load) : LeavesAt v us is := by
  intro r hr
  obtain ⟨access, hu, hi⟩ := h r hr
  obtain rfl : access = .load := hl _ hu
  exact ⟨hu, hi hl⟩

/-- An expression in which names are read changes no version, and its operands show the versions
that it finds. -/
theorem operands_reads (e : Expr) {v v' : Versions} {os : List Operand}
    (h : e.operands v = .ok (os, v')) (hl : ∀ u ∈ e.uses, u.2 = .load) :
    v.Reads (e.uses.map Prod.fst) v' ∧ LeavesAt v e.uses (leavesOf os) := by
  obtain ⟨ha, hi⟩ := e.operands_accesses h
  exact ⟨ha.reads hl, hi.leavesAt hl⟩

theorem operandsOfEach_reads (es : List Expr) {v v' : Versions} {oss : List (List Operand)}
    (h : operandsOfEach es v = .ok (oss, v')) (hl : ∀ u ∈ usesOfEach es, u.2 = .load) :
    v.Reads ((usesOfEach es).map Prod.fst) v' ∧
      LeavesAt v (usesOfEach es) (leavesOfArguments oss) := by
  obtain ⟨ha, hi⟩ := operandsOfEach_accesses es h
  exact ⟨ha.reads hl, hi.leavesAt hl⟩

end Expr
end ProgramGraph
