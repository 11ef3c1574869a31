import ProgramGraph.Proofs.Literals.Integers
import ProgramGraph.Proofs.Occurrences
import ProgramGraph.Proofs.Registry
import ProgramGraph.Proofs.Validity.Externals

/-! The flattened views of operands agree: the inputs of a record, the sources of its function and
the parameters of its lambda. Each repeats nothing, and each may be made in one pass that knows what
it has seen by a text. -/
namespace ProgramGraph

open ProgramGraph.Graph

section
variable {α β : Type}

/-- A member stays if nothing with its key came before. -/
def firstByKey (key : α → String) (seen : List String) : List α → List α
  | [] => []
  | a :: rest =>
    if seen.contains (key a) then firstByKey key seen rest
    else a :: firstByKey key (key a :: seen) rest

variable [DecidableEq α]

/-- Where the key tells members apart, a pass that remembers keys drops the repetitions. -/
theorem firstByKey_eq_filter {key : α → String} (hkey : Function.Injective key) (seen : List String)
    (l : List α) :
    firstByKey key seen l = (distinct l).filter fun a => !seen.contains (key a) := by
  induction l generalizing seen with
  | nil => rfl
  | cons a rest ih =>
    rw [firstByKey, distinct, List.filter_cons, List.filter_filter]
    cases hseen : seen.contains (key a) with
    | true =>
      rw [if_pos rfl, if_neg (by simp), ih]
      refine List.filter_congr fun b _ => ?_
      -- A member that equals `a` has a key seen before.
      by_cases hb : b = a
      · rw [hb, hseen]
        rfl
      · simp [hb]
    | false =>
      rw [if_neg (by simp), if_pos (by simp), ih]
      refine congrArg (a :: ·) (List.filter_congr fun b _ => ?_)
      rw [List.contains_cons, Bool.not_or, Bool.and_comm]
      have hsame : (key b == key a) = decide (b = a) := by
        rw [Bool.eq_iff_iff, beq_iff_eq, decide_eq_true_iff, hkey.eq_iff]
      rw [hsame]
      simp

theorem firstByKey_eq_distinct {key : α → String} (hkey : Function.Injective key) (l : List α) :
    firstByKey key [] l = distinct l := by
  rw [firstByKey_eq_filter hkey]
  exact List.filter_eq_self.mpr fun _ _ => rfl

/-- Repetitions may be dropped before or after the members are mapped. -/
theorem distinct_map [DecidableEq β] (f : α → β) (l : List α) :
    distinct ((distinct l).map f) = distinct (l.map f) := by
  have hmap : ∀ m : List α, m.map f = m.filterMap (some ∘ f) := fun m => by
    rw [List.filterMap_eq_map]
  rw [hmap, hmap, distinct_filterMap]

end

namespace Graph

/-- An input as a text. -/
def Input.key : Input → String
  | .ref r => "v:" ++ r.name ++ "@" ++ toString r.index
  | .function name => "f:" ++ name

def Source.key : Source → String
  | .var name => "variable:" ++ name
  | .function name => "function:" ++ name

theorem toString_inj {m n : Int} (h : toString m = toString n) : m = n := by
  have hread := Text.integer?_toString m
  rw [h, Text.integer?_toString] at hread
  exact (Option.some.inj hread).symm

theorem separator_not_mem_toString (n : Int) : '@' ∉ (toString n).toList := fun h => by
  have hread := Text.integer?_toString n
  rw [Text.integer?_eq_none h (by decide) (by decide)] at hread
  cases hread

/-- Texts that start differently differ. -/
theorem append_ne_append {a b : String} (h : a.toList.head? ≠ b.toList.head?) (ha : a.toList ≠ [])
    (hb : b.toList ≠ []) (s t : String) : a ++ s ≠ b ++ t := fun he => by
  have hl := congrArg (List.head? ∘ String.toList) he
  simp only [Function.comp_apply, String.toList_append, List.head?_append_of_ne_nil _ ha,
    List.head?_append_of_ne_nil _ hb] at hl
  exact h hl

/-- The role comes first, so that a colon in a name does no harm. -/
theorem Source.key_injective : Function.Injective Source.key := by
  intro s t h
  cases s with
  | var x =>
    cases t with
    | var y => rw [(String.append_right_inj _).mp h]
    | function y => exact absurd h (append_ne_append (by decide) (by decide) (by decide) _ _)
  | function x =>
    cases t with
    | var y => exact absurd h (append_ne_append (by decide) (by decide) (by decide) _ _)
    | function y => rw [(String.append_right_inj _).mp h]

/-- The version comes last, so that neither a colon nor a separator in a name does harm. -/
theorem Input.key_injective : Function.Injective Input.key := by
  intro i j h
  cases i with
  | function x =>
    cases j with
    | function y => rw [(String.append_right_inj _).mp h]
    | ref q =>
      rw [key, key, String.append_assoc, String.append_assoc] at h
      exact absurd h (append_ne_append (by decide) (by decide) (by decide) _ _)
  | ref r =>
    cases j with
    | function y =>
      rw [key, key, String.append_assoc, String.append_assoc] at h
      exact absurd h (append_ne_append (by decide) (by decide) (by decide) _ _)
    | ref q =>
      obtain ⟨name, index⟩ := r
      obtain ⟨name', index'⟩ := q
      simp only [key, String.append_assoc] at h
      have hl := congrArg String.toList ((String.append_right_inj _).mp h)
      simp only [String.toList_append] at hl
      obtain ⟨hname, hindex⟩ := Registry.last_separator_unique (separator_not_mem_toString index)
        (separator_not_mem_toString index') hl
      rw [String.toList_inj.mp hname, toString_inj (String.toList_inj.mp hindex)]

end Graph

namespace Operand

/-- Whatever the operands are, however deep their calls and whatever the names in them: the inputs
are the versions and callees that operands show at some place, each once and in the order of the
first of its places; the sources are the inputs without their versions, each name once for each of
its roles and in that order; and the parameters are the variables among the sources, each once. To
compare keys is as good as to compare inputs or sources. -/
theorem views_agree (operands : List Operand) (carried : List Reference) :
    (inputs operands carried).Nodup ∧
      (inputs operands carried).Pairwise (fun i j =>
        (exposed operands carried).idxOf i < (exposed operands carried).idxOf j) ∧
      (∀ i, i ∈ inputs operands carried ↔ i ∈ exposed operands carried) ∧
      (∀ i, i ∈ inputs operands carried ↔ ∃ p, ExposesAt operands carried p i) ∧
      (inputs operands carried).Pairwise (fun i j =>
        ∃ p, ExposesAt operands carried p i ∧ ∀ q, ExposesAt operands carried q j → p < q) ∧
      inputs operands carried = firstByKey Input.key [] (exposed operands carried) ∧
      sources operands carried = distinct ((inputs operands carried).map Source.ofInput) ∧
      sources operands carried =
        firstByKey Source.key [] ((exposed operands carried).map Source.ofInput) ∧
      (sources operands carried).Pairwise (fun s t =>
        ∃ p, (∃ i, Source.ofInput i = s ∧ ExposesAt operands carried p i) ∧
          ∀ q, (∃ j, Source.ofInput j = t ∧ ExposesAt operands carried q j) → p < q) ∧
      parameters operands carried = (sources operands carried).filterMap Source.variable? ∧
      (parameters operands carried).Nodup := by
  have hlisted := listed_exposed operands carried
  refine ⟨nodup_distinct _, pairwise_idxOf_distinct _, fun i => mem_distinct, fun i => ?_,
    hlisted.pairwise_distinct, ?_, ?_, ?_, (hlisted.map Source.ofInput).pairwise_distinct, rfl,
    nodup_parameters operands carried⟩
  · exact mem_distinct.trans (hlisted.mem_iff i)
  · exact (firstByKey_eq_distinct Input.key_injective _).symm
  · exact (distinct_map Source.ofInput _).symm
  · exact (firstByKey_eq_distinct Source.key_injective _).symm

/-- A call inside a call: the callee `f:x` and the variable `f:x` are different inputs, and the
versions of `x@1` are one parameter. -/
theorem views_agree_nested :
    let operands : List Operand :=
      [.call "f:x" [[.call "f" [[.ref ⟨"x@1", 0⟩, .ref ⟨"f:x", 1⟩]]], [.ref ⟨"x@1", 10⟩]],
        .ref ⟨"x@1", 0⟩]
    let carried : List Reference := [⟨"a", 2⟩]
    inputs operands carried =
        [.ref ⟨"a", 2⟩, .function "f:x", .function "f", .ref ⟨"x@1", 0⟩, .ref ⟨"f:x", 1⟩,
          .ref ⟨"x@1", 10⟩] ∧
      parameters operands carried = ["a", "x@1", "f:x"] ∧
      (parameters operands carried).Nodup ∧
      ExposesAt operands carried [1, 0, 0, 0, 0, 1] (.ref ⟨"f:x", 1⟩) ∧
      ∃ p, ExposesAt operands carried p (.ref ⟨"f:x", 1⟩) ∧
        ∀ q, ExposesAt operands carried q (.ref ⟨"x@1", 10⟩) → p < q := by
  intro operands carried
  have hinputs : inputs operands carried =
      [.ref ⟨"a", 2⟩, .function "f:x", .function "f", .ref ⟨"x@1", 0⟩, .ref ⟨"f:x", 1⟩,
        .ref ⟨"x@1", 10⟩] := by decide
  have hshown : ExposesAt operands carried [1, 0, 0, 0, 0, 1] (.ref ⟨"f:x", 1⟩) :=
    .operand rfl (.argument rfl rfl (.argument rfl rfl (.ref _)))
  obtain ⟨-, -, -, -, hbefore, -, -, -, -, -, hnodup⟩ := views_agree operands carried
  rw [hinputs] at hbefore
  refine ⟨hinputs, by decide, hnodup, hshown, ?_⟩
  exact List.pairwise_iff_getElem.mp hbefore 4 5 (by simp) (by simp) (by simp)

end Operand
end ProgramGraph
