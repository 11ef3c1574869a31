import ProgramGraph.Proofs.Follows.Assignment
import ProgramGraph.Proofs.Meaning.Semantics

/-! The value of an expression depends on the leaves of its operands only, so that a record, which
sees no more than these, computes it. -/
namespace ProgramGraph

open ProgramGraph.Graph

variable {V : Type} {I : Interpretation V} {σ σ' : String → V}

namespace Expr

open Operand

theorem eval_of_isConstantIndex {index : Expr} (h : index.isConstantIndex = true) :
    index.eval I σ = index.eval I σ' := by
  unfold isConstantIndex at h
  split at h
  · rfl
  · rfl
  · cases h

/-- Stores that agree on some leaves. -/
def Agree (σ σ' : String → V) (leaves : List Input) : Prop :=
  ∀ r, Input.ref r ∈ leaves → σ r.name = σ' r.name

theorem agree_append {is js : List Input} :
    Agree σ σ' (is ++ js) ↔ Agree σ σ' is ∧ Agree σ σ' js := by
  simp only [Agree, List.mem_append, or_imp, forall_and]

theorem agree_nil : Agree σ σ' [] := nofun

mutual

theorem eval_congr (e : Expr) {v v' : Versions} {os : List Operand}
    (h : e.operands v = .ok (os, v')) (hl : ∀ u ∈ e.uses, u.2 = .load)
    (ha : Agree σ σ' (leavesOf os)) : e.eval I σ = e.eval I σ' := by
  cases e with
  | constant l line => rfl
  | name id access line =>
    obtain rfl : access = .load := hl _ (List.mem_singleton_self _)
    obtain ⟨r, w, hr, hp⟩ := bind_eq_ok.mp h
    obtain ⟨rfl, rfl⟩ := Versioning.read_eq_ok.mp hr
    obtain ⟨rfl, rfl⟩ := pure_eq_ok.mp hp
    exact ha _ List.mem_cons_self
  | member value attr access line => rfl
  | binary op left right line =>
    simp only [uses, List.mem_append] at hl
    obtain ⟨ls, w, hls, h⟩ := bind_eq_ok.mp h
    obtain ⟨rs, w', hrs, h⟩ := bind_eq_ok.mp h
    obtain ⟨rfl, rfl⟩ := pure_eq_ok.mp h
    rw [leavesOf_binaryOperands, agree_append] at ha
    rw [eval, eval, eval_congr left hls (fun u hu => hl u (.inl hu)) ha.1,
      eval_congr right hrs (fun u hu => hl u (.inr hu)) ha.2]
  | unary op operand line =>
    obtain ⟨os, w, hos, h⟩ := bind_eq_ok.mp h
    obtain ⟨rfl, rfl⟩ := pure_eq_ok.mp h
    rw [leavesOf_unaryFold] at ha
    rw [eval, eval, eval_congr operand hos hl ha]
  | boolean op values line =>
    obtain ⟨oss, w, hos, h⟩ := bind_eq_ok.mp h
    obtain ⟨rfl, rfl⟩ := pure_eq_ok.mp h
    rw [leavesOf_flatten] at ha
    rw [eval, eval, evalOfEach_congr values hos hl ha]
  | compare left ops comparators line =>
    simp only [uses, List.mem_append] at hl
    obtain ⟨ls, w, hls, h⟩ := bind_eq_ok.mp h
    obtain ⟨rs, w', hrs, h⟩ := bind_eq_ok.mp h
    obtain ⟨rfl, rfl⟩ := pure_eq_ok.mp h
    have hleft := fun hls' => eval_congr left hls (fun u hu => hl u (.inl hu)) hls'
    rw [eval, eval]
    rcases compareOperands_eq ops ls rs with he | ⟨-, hln, op, r, others, rfl, rfl, hrn⟩
    · rw [he, leavesOf_append, leavesOf_flatten, agree_append] at ha
      rw [hleft ha.1, evalOfEach_congr comparators hrs (fun u hu => hl u (.inr hu)) ha.2]
    · -- A chain that folds is one comparison with the first comparator.
      cases comparators with
      | nil =>
        obtain ⟨⟨⟩, -⟩ := pure_eq_ok.mp hrs
      | cons c cs =>
        obtain ⟨r', w₁, hc, hrs⟩ := bind_eq_ok.mp hrs
        obtain ⟨others', w₂, -, hrs⟩ := bind_eq_ok.mp hrs
        obtain ⟨he, -⟩ := pure_eq_ok.mp hrs
        obtain ⟨rfl, -⟩ := List.cons.inj he
        have hfirst := eval_congr c hc
          (fun u hu => hl u (.inr (List.mem_append_left _ hu))) (hrn ▸ agree_nil)
        rw [hleft (hln ▸ agree_nil)]
        simp only [evalOfEach, List.zip_cons_cons, List.zip_nil_left, hfirst]
  | call func args keywords line =>
    obtain ⟨_, w, hk, h⟩ := bind_eq_ok.mp h
    obtain ⟨-, rfl⟩ := Versioning.ofResult_eq_ok.mp hk
    obtain ⟨callee, w, hc, h⟩ := bind_eq_ok.mp h
    obtain ⟨-, rfl⟩ := Versioning.ofResult_eq_ok.mp hc
    obtain ⟨oss, w, hos, h⟩ := bind_eq_ok.mp h
    obtain ⟨rfl, rfl⟩ := pure_eq_ok.mp h
    have hargs : Agree σ σ' (leavesOfArguments oss) := fun r hr =>
      ha r (by simpa [leavesOf, leaves] using hr)
    rw [eval, eval, evalOfEach_congr args hos hl hargs]
  | subscript value index access line =>
    cases access with
    | load =>
      obtain ⟨x, w, hs, h⟩ := bind_eq_ok.mp h
      obtain ⟨hx, rfl⟩ := Versioning.ofResult_eq_ok.mp hs
      obtain ⟨r, w, hr, h⟩ := bind_eq_ok.mp h
      obtain ⟨rfl, rfl⟩ := Versioning.read_eq_ok.mp hr
      obtain ⟨rfl, rfl⟩ := pure_eq_ok.mp h
      obtain ⟨⟨access, own, rfl⟩, hi⟩ := subscriptBase_eq_ok hx
      have hvar : σ x = σ' x := ha _ List.mem_cons_self
      rw [eval, eval, eval, eval, hvar, eval_of_isConstantIndex hi]
    | store => cases h
    | del => cases h
  | list elements access line =>
    cases access with
    | load =>
      obtain ⟨oss, w, hos, h⟩ := bind_eq_ok.mp h
      obtain ⟨rfl, rfl⟩ := pure_eq_ok.mp h
      rw [leavesOf_flatten] at ha
      rw [eval, eval, evalOfEach_congr elements hos hl ha]
    | store => cases h
    | del => cases h
  | tuple elements access line =>
    cases access with
    | load =>
      obtain ⟨oss, w, hos, h⟩ := bind_eq_ok.mp h
      obtain ⟨rfl, rfl⟩ := pure_eq_ok.mp h
      rw [leavesOf_flatten] at ha
      rw [eval, eval, evalOfEach_congr elements hos hl ha]
    | store => cases h
    | del => cases h
  | unsupported nodeType line => rfl

theorem evalOfEach_congr (es : List Expr) {v v' : Versions} {oss : List (List Operand)}
    (h : operandsOfEach es v = .ok (oss, v')) (hl : ∀ u ∈ usesOfEach es, u.2 = .load)
    (ha : Agree σ σ' (leavesOfArguments oss)) : evalOfEach I σ es = evalOfEach I σ' es := by
  cases es with
  | nil => rfl
  | cons e rest =>
    simp only [usesOfEach, List.mem_append] at hl
    obtain ⟨os, w, hos, h⟩ := bind_eq_ok.mp h
    obtain ⟨oss, w', hoss, h⟩ := bind_eq_ok.mp h
    obtain ⟨rfl, rfl⟩ := pure_eq_ok.mp h
    obtain ⟨hfirst, hrest⟩ := agree_append.mp ha
    rw [evalOfEach, evalOfEach, eval_congr e hos (fun u hu => hl u (.inl hu)) hfirst,
      evalOfEach_congr rest hoss (fun u hu => hl u (.inr hu)) hrest]

end

end Expr
end ProgramGraph
