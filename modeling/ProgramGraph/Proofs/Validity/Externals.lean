import ProgramGraph.Proofs.Supply.Operands
import ProgramGraph.Proofs.Validity.Closure
import ProgramGraph.Proofs.Validity.RoundTrip

/-! Functions that a document calls without defining them. -/
namespace ProgramGraph

open ProgramGraph.Graph

/-- Members are listed by their first occurrence. -/
theorem pairwise_idxOf_distinct {α : Type} [DecidableEq α] (l : List α) :
    (distinct l).Pairwise (fun a b => l.idxOf a < l.idxOf b) := by
  induction l with
  | nil => exact .nil
  | cons c rest ih =>
    have hshift : ∀ a ∈ (distinct rest).filter (· ≠ c),
        (c :: rest).idxOf a = rest.idxOf a + 1 := by
      intro a ha
      have hne : a ≠ c := by simpa using (List.mem_filter.mp ha).2
      exact List.idxOf_cons_ne rest hne.symm
    rw [distinct, List.pairwise_cons]
    constructor
    · intro b hb
      rw [List.idxOf_cons_self, hshift b hb]
      omega
    · refine (ih.filter _).imp_of_mem ?_
      intro a b ha hb hlt
      rw [hshift a ha, hshift b hb]
      omega

namespace Graph

/-- The function that a record calls for its effect. -/
def Record.callee? : Record → Option String
  | .call function _ => some function
  | _ => none

namespace Document
variable {d : Document}

/-- The functions that are called for their effect, by the body first and then by each function,
and the start behind them. -/
def calls (d : Document) : List String :=
  (d.body ++ d.functions.flatMap Function.body).filterMap Record.callee? ++
    if d.start = "" then [] else [d.start]

theorem callees_eq_calls : d.callees = d.calls := by
  unfold calls callees
  rw [← map_snd_records, List.filterMap_map]
  rfl

theorem mem_calls_iff {name : String} : name ∈ d.calls ↔
    (∃ input, .call name input ∈ d.body ∨ ∃ f ∈ d.functions, .call name input ∈ f.body) ∨
      (name = d.start ∧ name ≠ "") := by
  have hstart : name ∈ (if d.start = "" then [] else [d.start]) ↔ name = d.start ∧ name ≠ "" := by
    by_cases hempty : d.start = ""
    · rw [if_pos hempty, hempty]
      exact iff_of_false List.not_mem_nil fun h => h.2 h.1
    · rw [if_neg hempty, List.mem_singleton]
      exact ⟨fun h => ⟨h, h ▸ hempty⟩, And.left⟩
  have hcallee : ∀ r : Record, r.callee? = some name ↔ ∃ input, r = .call name input := by
    intro r
    cases r with
    | call function input =>
      constructor
      · intro h
        obtain rfl := Option.some.inj h
        exact ⟨input, rfl⟩
      · rintro ⟨_, he⟩
        obtain ⟨rfl, -⟩ := Record.call.inj he
        rfl
    | _ => exact iff_of_false nofun nofun
  unfold calls
  rw [List.mem_append, hstart, List.mem_filterMap]
  apply or_congr_left
  constructor
  · rintro ⟨r, hr, hc⟩
    obtain ⟨input, rfl⟩ := (hcallee r).mp hc
    rw [List.mem_append, List.mem_flatMap] at hr
    exact ⟨input, hr⟩
  · rintro ⟨input, hr⟩
    rw [← List.mem_flatMap, ← List.mem_append] at hr
    exact ⟨_, hr, (hcallee _).mpr ⟨input, rfl⟩⟩

theorem find?_eq_none_iff {name : String} :
    d.find? name = none ↔ ∀ f ∈ d.functions, f.name ≠ name := by
  unfold find?
  rw [List.find?_eq_none]
  simp only [decide_eq_true_eq, ne_eq]

end Document

theorem externals_of_schema {j : Json} {d : Document} (h : Document.schema (some j) = .ok d) :
    (validate j).externals = d.externals := by
  unfold validate
  rw [h]
  dsimp only
  split <;> rfl

/-- The verdict on a document of the right shape lists each function that is called for its effect
or as the start and not defined, once and in order of first use. -/
theorem validate_externals {j : Json} {d : Document} (h : Document.schema (some j) = .ok d) :
    (validate j).externals.Nodup ∧
      (validate j).externals.Pairwise (fun x y => d.calls.idxOf x < d.calls.idxOf y) ∧
      ∀ name, name ∈ (validate j).externals ↔ (∀ f ∈ d.functions, f.name ≠ name) ∧
        ((∃ input, .call name input ∈ d.body ∨ ∃ f ∈ d.functions, .call name input ∈ f.body) ∨
          (name = d.start ∧ name ≠ "")) := by
  have hlist : (validate j).externals =
      distinct (d.calls.filter fun name => (d.find? name).isNone) := by
    rw [externals_of_schema h, ← Document.callees_eq_calls]
    rfl
  rw [hlist]
  refine ⟨nodup_distinct _, ?_, ?_⟩
  · rw [distinct_filter]
    exact (pairwise_idxOf_distinct _).filter _
  · intro name
    rw [mem_distinct, List.mem_filter, Option.isNone_iff_eq_none, Document.find?_eq_none_iff,
      Document.mem_calls_iff, and_comm]

/-- Both ways to be called, and an undefined start behind the calls. -/
theorem validate_externals_sample :
    ∃ d : Document, Document.schema (some d.toJson) = .ok d ∧
      (validate d.toJson).externals = ["log", "show", "entry"] ∧
      (validate d.toJson).externals.Nodup ∧ "entry" = d.start := by
  let container : Function := .container "f" [] [] [.call "show" [], .call "log" [], .call "f" []]
  let d : Document := ⟨"entry", "m", "2024-01-01", [container], [.call "log" []]⟩
  have hschema : Document.schema (some d.toJson) = .ok d :=
    Checked.toOption_eq_some.mp (by decide +kernel)
  obtain ⟨hnodup, -, -⟩ := validate_externals hschema
  refine ⟨d, hschema, ?_, hnodup, rfl⟩
  rw [externals_of_schema hschema]
  decide

/-- A function that is called to compute a value is not listed. -/
theorem validate_externals_operator :
    ∃ d : Document, Document.schema (some d.toJson) = .ok d ∧ (validate d.toJson).isValid = true ∧
      (∃ f ∈ d.functions, .value "f__assign__x_0" ⟨"x", 0⟩ [.function "sqrt"] ∈ f.body) ∧
      (∀ f ∈ d.functions, f.name ≠ "sqrt") ∧ "sqrt" ∉ (validate d.toJson).externals := by
  let assign : Function :=
    .assign "f__assign__x_0" "x" [.function "sqrt"] (.lambda "f__lambda__x_0" none)
  let container : Function := .container "f" [] [⟨"x", .real⟩]
    [.value "f__assign__x_0" ⟨"x", 0⟩ [.function "sqrt"]]
  let d : Document := ⟨"f", "m", "2024-01-01", [assign, container], []⟩
  have hschema : Document.schema (some d.toJson) = .ok d :=
    Checked.toOption_eq_some.mp (by decide +kernel)
  refine ⟨d, hschema, ?_, ⟨container, by decide, by decide⟩, by decide, ?_⟩
  · rw [validate_of_defects_eq_nil hschema (by decide)]
    rfl
  · rw [externals_of_schema hschema]
    decide

end Graph
end ProgramGraph
