import ProgramGraph.Proofs.Operands
import ProgramGraph.Proofs.Validity.Admissible
import ProgramGraph.Proofs.Validity.Bounds

/-! Operands of admissible expressions can stand in a document as long as versions stay small. -/
namespace ProgramGraph

open ProgramGraph.Graph (Input Source)

namespace Literal

theorem isSafe_of_represented? {d : Domain} {x : Binary64} {l : Literal}
    (h : represented? d x = some l) : l.isSafe = true := by
  cases d with
  | integer =>
    unfold represented? at h
    cases hn : x.toInt? with
    | none => simp [hn] at h
    | some n =>
      simp only [hn] at h
      split at h
      · rename_i hs
        obtain rfl := Option.some.inj h
        simp [isSafe, hn, hs]
      · cases h
  | _ =>
    obtain rfl := Option.some.inj h
    rfl

theorem isSafe_of_foldBinary? {op : BinaryOp} {a b l : Literal} (h : foldBinary? op a b = some l) :
    l.isSafe = true := by
  unfold foldBinary? at h
  split at h
  · obtain ⟨x, -, h⟩ := Option.bind_eq_some_iff.mp h
    exact isSafe_of_represented? h
  · split at h
    · obtain rfl := Option.some.inj h
      rfl
    · cases h

theorem isSafe_of_foldCompare? {op : CompareOp} {a b l : Literal}
    (h : foldCompare? op a b = some l) : l.isSafe = true := by
  unfold foldCompare? at h
  split at h
  · obtain rfl := Option.some.inj h
    rfl
  · split at h
    · obtain rfl := Option.some.inj h
      rfl
    · cases h

/-- The opposite of a safe integer is one. -/
theorem exists_negate? {x : Binary64} {n : Int} (hx : x.value = n)
    (hn : Binary64.isSafe n = true) :
    ∃ y, negate? x = some y ∧ y.value = ((-n : Int) : Rat) ∧ Binary64.isSafe (-n) = true := by
  have hs : Binary64.isSafe (-n) = true := by
    rw [Binary64.isSafe_iff] at hn ⊢
    omega
  obtain ⟨y, hy, hv⟩ := Binary64.round?_of_isSafe hs
  have hopposite : 0 - x.value = ((-n : Int) : Rat) := by
    rw [hx, Rat.intCast_neg, zero_sub]
  refine ⟨y, ?_, hv, hs⟩
  rw [negate?, hopposite]
  exact hy

theorem toInt?_negate? {x y : Binary64} {n : Int} (hx : x.toInt? = some n)
    (hn : Binary64.isSafe n = true) (h : negate? x = some y) :
    y.toInt? = some (-n) ∧ Binary64.isSafe (-n) = true := by
  obtain ⟨z, hz, hv, hs⟩ := exists_negate? (Binary64.value_of_toInt? hx) hn
  obtain rfl := Option.some.inj (h.symm.trans hz)
  exact ⟨Binary64.toInt?_of_value hv, hs⟩

theorem isSafe_of_foldUnary? {op : UnaryOp} {a l : Literal} (ha : a.isSafe = true)
    (h : foldUnary? op a = some l) : l.isSafe = true := by
  cases op with
  | not =>
    obtain rfl := Option.some.inj h
    rfl
  | pos =>
    obtain ⟨x, -, rfl⟩ := Option.map_eq_some_iff.mp h
    exact ha
  | neg =>
    obtain ⟨x, hx, h⟩ := Option.bind_eq_some_iff.mp h
    obtain ⟨y, hy, h⟩ := Option.bind_eq_some_iff.mp h
    obtain rfl := Option.some.inj h
    obtain ⟨domain, value⟩ := a
    cases domain with
    | integer =>
      cases value with
      | number z =>
        obtain rfl := Option.some.inj hx
        cases hz : z.toInt? with
        | none => simp [isSafe, hz] at ha
        | some n =>
          have hn : Binary64.isSafe n = true := by simpa [isSafe, hz] using ha
          obtain ⟨hm, hs⟩ := toInt?_negate? hz hn hy
          simp [isSafe, hm, hs]
      | _ => cases hx
    | _ => rfl

end Literal

namespace Operand

/-- All that an operand shows can stand in a document. -/
inductive Fits : Operand → Prop
  | literal {l} (h : l.isSafe = true) : Fits (.literal l)
  | ref {r} (h : r.Fits) : Fits (.ref r)
  | call {callee arguments} (hcallee : callee ≠ "")
      (harguments : ∀ os ∈ arguments, ∀ o ∈ os, Fits o) : Fits (.call callee arguments)

mutual

theorem leaves_fit (o : Operand) (h : o.Fits) : ∀ i ∈ o.leaves, i.Fits := by
  cases h with
  | literal h => exact nofun
  | ref h => simpa [leaves, Input.Fits] using h
  | @call callee arguments hcallee harguments =>
    rw [leaves, List.forall_mem_cons]
    exact ⟨hcallee, leavesOfArguments_fit arguments harguments⟩

theorem leavesOf_fit (os : List Operand) (h : ∀ o ∈ os, o.Fits) : ∀ i ∈ leavesOf os, i.Fits := by
  cases os with
  | nil => exact nofun
  | cons o rest =>
    rw [List.forall_mem_cons] at h
    rw [leavesOf, List.forall_mem_append]
    exact ⟨leaves_fit o h.1, leavesOf_fit rest h.2⟩

theorem leavesOfArguments_fit (oss : List (List Operand)) (h : ∀ os ∈ oss, ∀ o ∈ os, o.Fits) :
    ∀ i ∈ leavesOfArguments oss, i.Fits := by
  cases oss with
  | nil => exact nofun
  | cons os rest =>
    rw [List.forall_mem_cons] at h
    rw [leavesOfArguments, List.forall_mem_append]
    exact ⟨leavesOf_fit os h.1, leavesOfArguments_fit rest h.2⟩

end

variable {operands : List Operand} {carried : List Reference}

theorem inputs_fit (ho : ∀ o ∈ operands, o.Fits) (hc : ∀ r ∈ carried, r.Fits) :
    ∀ i ∈ inputs operands carried, i.Fits := by
  intro i hi
  rw [inputs, mem_distinct] at hi
  rcases List.mem_append.mp hi with hi | hi
  · obtain ⟨r, hr, rfl⟩ := List.mem_map.mp hi
    exact hc r hr
  · exact leavesOf_fit operands ho i hi

theorem sources_fit (ho : ∀ o ∈ operands, o.Fits) (hc : ∀ r ∈ carried, r.Fits) :
    ∀ s ∈ sources operands carried, s.Fits := by
  intro s hs
  rw [sources, mem_distinct] at hs
  obtain ⟨i, hi, rfl⟩ := List.mem_map.mp hs
  have hfits := inputs_fit ho hc i (mem_distinct.mpr hi)
  cases i with
  | ref r => exact hfits.1
  | function name => exact hfits

end Operand

/-- How many uses of variables are writes. -/
def storesIn (us : List (String × Access)) : Nat := us.countP (·.2 = .store)

theorem storesIn_append (us ws : List (String × Access)) :
    storesIn (us ++ ws) = storesIn us + storesIn ws := List.countP_append

namespace Expr

open Operand

theorem foldOr_fit {folded : Option Literal} {os : List Operand}
    (hf : ∀ l, folded = some l → l.isSafe = true) (ho : ∀ o ∈ os, o.Fits) :
    ∀ o ∈ foldOr folded os, o.Fits := by
  cases folded with
  | none => exact ho
  | some l => simpa [foldOr] using Operand.Fits.literal (hf l rfl)

theorem binaryOperands_fit {op : BinaryOp} {left right : Expr} {ls rs : List Operand}
    (hl : ∀ o ∈ ls, o.Fits) (hr : ∀ o ∈ rs, o.Fits) :
    ∀ o ∈ binaryOperands op left right ls rs, o.Fits := by
  refine foldOr_fit (fun l h => ?_) (List.forall_mem_append.mpr ⟨hl, hr⟩)
  obtain ⟨-, -, h⟩ := Option.bind_eq_some_iff.mp h
  obtain ⟨a, -, h⟩ := Option.bind_eq_some_iff.mp h
  obtain ⟨b, -, h⟩ := Option.bind_eq_some_iff.mp h
  exact Literal.isSafe_of_foldBinary? h

theorem unaryFold_fit {op : UnaryOp} {os : List Operand} (ho : ∀ o ∈ os, o.Fits) :
    ∀ o ∈ foldOr ((singleLiteral? os).bind (Literal.foldUnary? op)) os, o.Fits := by
  refine foldOr_fit (fun l h => ?_) ho
  obtain ⟨a, ha, h⟩ := Option.bind_eq_some_iff.mp h
  unfold singleLiteral? at ha
  split at ha
  · obtain rfl := Option.some.inj ha
    cases ho _ (List.mem_singleton_self _) with
    | literal hs => exact Literal.isSafe_of_foldUnary? hs h
  · cases ha

theorem flatten_fit {oss : List (List Operand)} (h : ∀ os ∈ oss, ∀ o ∈ os, o.Fits) :
    ∀ o ∈ oss.flatten, o.Fits := by
  intro o ho
  obtain ⟨os, hos, ho⟩ := List.mem_flatten.mp ho
  exact h os hos o ho

theorem compareOperands_fit {ops : List CompareOp} {ls : List Operand} {rs : List (List Operand)}
    (hl : ∀ o ∈ ls, o.Fits) (hr : ∀ os ∈ rs, ∀ o ∈ os, o.Fits) :
    ∀ o ∈ compareOperands ops ls rs, o.Fits := by
  refine foldOr_fit (fun l h => ?_) (List.forall_mem_append.mpr ⟨hl, flatten_fit hr⟩)
  split at h
  · obtain ⟨a, -, h⟩ := Option.bind_eq_some_iff.mp h
    obtain ⟨b, -, h⟩ := Option.bind_eq_some_iff.mp h
    exact Literal.isSafe_of_foldCompare? h
  · cases h

theorem callee_ne {func : Expr} {line : Option Int} {callee : String} (hf : func.Admissible)
    (h : func.callee line = .ok callee) : callee ≠ "" := by
  cases func with
  | name id access own =>
    obtain rfl := Except.ok.inj h
    exact hf.name
  | member value attr access own =>
    obtain ⟨owner, -, h⟩ := except_bind_eq_ok.mp h
    obtain rfl := except_pure_eq_ok.mp h
    intro he
    simpa using congrArg String.length he
  | _ => cases h

mutual

/-- The versions of an expression go up by its writes, and its operands can stand in a document. -/
theorem operands_fit (e : Expr) {v v' : Versions} {os : List Operand} {b : Nat}
    (h : e.operands v = .ok (os, v')) (he : e.Admissible) (hv : v.Within b)
    (hb : b + storesIn e.uses < 2 ^ 53) :
    v'.Within (b + storesIn e.uses) ∧ ∀ o ∈ os, o.Fits := by
  cases e with
  | constant l line =>
    obtain ⟨rfl, rfl⟩ := pure_eq_ok.mp h
    exact ⟨hv, by simpa using Operand.Fits.literal he.self⟩
  | name id access line =>
    cases access with
    | load =>
      obtain ⟨r, w, hr, hp⟩ := bind_eq_ok.mp h
      obtain ⟨rfl, rfl⟩ := Versioning.read_eq_ok.mp hr
      obtain ⟨rfl, rfl⟩ := pure_eq_ok.mp hp
      have hfits := Reference.Fits.of_le he.name (hv.current id) (by omega)
      exact ⟨hv.read he.name, by simpa using Operand.Fits.ref hfits⟩
    | store =>
      obtain ⟨r, w, hr, hp⟩ := bind_eq_ok.mp h
      obtain ⟨rfl, rfl⟩ := Versioning.write_eq_ok.mp hr
      obtain ⟨rfl, rfl⟩ := pure_eq_ok.mp hp
      have hcount : storesIn (Expr.name id .store line).uses = 1 := rfl
      have hn := hv.upcoming id
      have hfits : Reference.Fits ⟨id, v.upcoming id⟩ :=
        Reference.Fits.of_le (b := b + 1) he.name (by omega) (by omega)
      exact ⟨hv.write he.name, by simpa using Operand.Fits.ref hfits⟩
    | del => cases h
  | member value attr access line => cases h
  | binary op left right line =>
    obtain ⟨ls, w, hls, h⟩ := bind_eq_ok.mp h
    obtain ⟨rs, w', hrs, h⟩ := bind_eq_ok.mp h
    obtain ⟨rfl, rfl⟩ := pure_eq_ok.mp h
    rw [uses, storesIn_append] at hb ⊢
    obtain ⟨hw, hl⟩ := operands_fit left hls he.binary.1 hv (by omega)
    obtain ⟨hw', hr⟩ := operands_fit right hrs he.binary.2 hw (by omega)
    exact ⟨Nat.add_assoc .. ▸ hw', binaryOperands_fit hl hr⟩
  | unary op operand line =>
    obtain ⟨os, w, hos, h⟩ := bind_eq_ok.mp h
    obtain ⟨rfl, rfl⟩ := pure_eq_ok.mp h
    obtain ⟨hw, ho⟩ := operands_fit operand hos he.unary hv hb
    exact ⟨hw, unaryFold_fit ho⟩
  | boolean op values line =>
    obtain ⟨oss, w, hos, h⟩ := bind_eq_ok.mp h
    obtain ⟨rfl, rfl⟩ := pure_eq_ok.mp h
    obtain ⟨hw, ho⟩ := operandsOfEach_fit values hos he.boolean hv hb
    exact ⟨hw, flatten_fit ho⟩
  | compare left ops comparators line =>
    obtain ⟨ls, w, hls, h⟩ := bind_eq_ok.mp h
    obtain ⟨rs, w', hrs, h⟩ := bind_eq_ok.mp h
    obtain ⟨rfl, rfl⟩ := pure_eq_ok.mp h
    rw [uses, storesIn_append] at hb ⊢
    obtain ⟨hw, hl⟩ := operands_fit left hls he.compare.1 hv (by omega)
    obtain ⟨hw', hr⟩ := operandsOfEach_fit comparators hrs he.compare.2 hw (by omega)
    exact ⟨Nat.add_assoc .. ▸ hw', compareOperands_fit hl hr⟩
  | call func args keywords line =>
    obtain ⟨_, w, hk, h⟩ := bind_eq_ok.mp h
    obtain ⟨-, rfl⟩ := Versioning.ofResult_eq_ok.mp hk
    obtain ⟨callee, w, hs, h⟩ := bind_eq_ok.mp h
    obtain ⟨hc, rfl⟩ := Versioning.ofResult_eq_ok.mp hs
    obtain ⟨oss, w, hos, h⟩ := bind_eq_ok.mp h
    obtain ⟨rfl, rfl⟩ := pure_eq_ok.mp h
    obtain ⟨hw, ho⟩ := operandsOfEach_fit args hos he.call.2 hv hb
    exact ⟨hw, by simpa using Operand.Fits.call (callee_ne he.call.1 hc) ho⟩
  | subscript value index access line =>
    cases access with
    | load =>
      obtain ⟨x, w, hs, h⟩ := bind_eq_ok.mp h
      obtain ⟨hx, rfl⟩ := Versioning.ofResult_eq_ok.mp hs
      obtain ⟨r, w, hr, h⟩ := bind_eq_ok.mp h
      obtain ⟨rfl, rfl⟩ := Versioning.read_eq_ok.mp hr
      obtain ⟨rfl, rfl⟩ := pure_eq_ok.mp h
      obtain ⟨⟨access, own, rfl⟩, -⟩ := subscriptBase_eq_ok hx
      have hfits := Reference.Fits.of_le he.subscript.name (hv.current x) (by omega)
      exact ⟨hv.read he.subscript.name, by simpa using Operand.Fits.ref hfits⟩
    | store => cases h
    | del => cases h
  | list elements access line =>
    cases access with
    | load =>
      obtain ⟨oss, w, hos, h⟩ := bind_eq_ok.mp h
      obtain ⟨rfl, rfl⟩ := pure_eq_ok.mp h
      obtain ⟨hw, ho⟩ := operandsOfEach_fit elements hos he.list hv hb
      exact ⟨hw, flatten_fit ho⟩
    | store => cases h
    | del => cases h
  | tuple elements access line =>
    cases access with
    | load =>
      obtain ⟨oss, w, hos, h⟩ := bind_eq_ok.mp h
      obtain ⟨rfl, rfl⟩ := pure_eq_ok.mp h
      obtain ⟨hw, ho⟩ := operandsOfEach_fit elements hos he.tuple hv hb
      exact ⟨hw, flatten_fit ho⟩
    | store => cases h
    | del => cases h
  | unsupported nodeType line => cases h

theorem operandsOfEach_fit (es : List Expr) {v v' : Versions} {oss : List (List Operand)} {b : Nat}
    (h : operandsOfEach es v = .ok (oss, v')) (he : ∀ e ∈ es, e.Admissible) (hv : v.Within b)
    (hb : b + storesIn (usesOfEach es) < 2 ^ 53) :
    v'.Within (b + storesIn (usesOfEach es)) ∧ ∀ os ∈ oss, ∀ o ∈ os, o.Fits := by
  cases es with
  | nil =>
    obtain ⟨rfl, rfl⟩ := pure_eq_ok.mp h
    exact ⟨hv, nofun⟩
  | cons e rest =>
    obtain ⟨os, w, hos, h⟩ := bind_eq_ok.mp h
    obtain ⟨oss, w', hoss, h⟩ := bind_eq_ok.mp h
    obtain ⟨rfl, rfl⟩ := pure_eq_ok.mp h
    rw [List.forall_mem_cons] at he
    rw [usesOfEach, storesIn_append] at hb ⊢
    obtain ⟨hw, ho⟩ := operands_fit e hos he.1 hv (by omega)
    obtain ⟨hw', hr⟩ := operandsOfEach_fit rest hoss he.2 hw (by omega)
    exact ⟨Nat.add_assoc .. ▸ hw', List.forall_mem_cons.mpr ⟨ho, hr⟩⟩

end

end Expr

end ProgramGraph
