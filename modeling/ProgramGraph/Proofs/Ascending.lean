import ProgramGraph.Proofs.Names
import ProgramGraph.Proofs.Registry
import ProgramGraph.Proofs.Computation

/-! Versions that are given out in ascending order, each variable counted by itself and all
conditions of a function counted together. -/
namespace ProgramGraph

namespace Reference

/-- What a version is counted under: its variable, or nothing for a condition. -/
def counter (r : Reference) : Option String :=
  if isConditionName r.name then none else some r.name

/-- The number of a version under its counter. -/
def stamp (r : Reference) : Int :=
  if isConditionName r.name then conditionNumber r.name else r.index

theorem counter_of_ordinary {r : Reference} (h : isConditionName r.name = false) :
    r.counter = some r.name := by
  simp [counter, h]

theorem stamp_of_ordinary {r : Reference} (h : isConditionName r.name = false) :
    r.stamp = r.index := by
  simp [stamp, h]

theorem counter_of_condition {r : Reference} (h : isConditionName r.name = true) :
    r.counter = none := by
  simp [counter, h]

@[simp] theorem counter_condition (n : Nat) (k : Int) :
    (⟨conditionName n, k⟩ : Reference).counter = none := by
  simp [counter]

@[simp] theorem stamp_condition (n : Nat) (k : Int) :
    (⟨conditionName n, k⟩ : Reference).stamp = n := by
  simp [stamp]

end Reference

/-- The numbers that the counters of a scope give next. -/
def LoweringState.clock (s : LoweringState) : Option String → Int
  | some x => s.versions.upcoming x
  | none => s.registry.count (s.owner ++ "#condition")

/-- Versions given out between two states of the counters, in ascending order under each. -/
structure Ascending (lo hi : Option String → Int) (rs : List Reference) : Prop where
  le : ∀ c, lo c ≤ hi c
  mem : ∀ r ∈ rs, lo r.counter ≤ r.stamp ∧ r.stamp < hi r.counter
  pairwise : rs.Pairwise fun a b => a.counter = b.counter → a.stamp < b.stamp

namespace Ascending
variable {lo mid hi : Option String → Int}

theorem nil (h : ∀ c, lo c ≤ hi c) : Ascending lo hi [] := ⟨h, nofun, .nil⟩

theorem single {r : Reference} (h : ∀ c, lo c ≤ hi c) (hl : lo r.counter ≤ r.stamp)
    (hu : r.stamp < hi r.counter) : Ascending lo hi [r] where
  le := h
  mem q hq := by
    obtain rfl := List.mem_singleton.mp hq
    exact ⟨hl, hu⟩
  pairwise := List.pairwise_singleton _ _

theorem append {rs qs : List Reference} (h : Ascending lo mid rs) (h' : Ascending mid hi qs) :
    Ascending lo hi (rs ++ qs) where
  le c := Int.le_trans (h.le c) (h'.le c)
  mem r hr := by
    rcases List.mem_append.mp hr with hr | hr
    · exact ⟨(h.mem r hr).1, Int.lt_of_lt_of_le (h.mem r hr).2 (h'.le _)⟩
    · exact ⟨Int.le_trans (h.le _) (h'.mem r hr).1, (h'.mem r hr).2⟩
  pairwise := by
    refine List.pairwise_append.mpr ⟨h.pairwise, h'.pairwise, fun r hr q hq hc => ?_⟩
    have hlt := (h.mem r hr).2
    rw [hc] at hlt
    exact Int.lt_of_lt_of_le hlt (h'.mem q hq).1

/-- An ordinary variable is counted by itself. -/
theorem mem_ordinary {rs : List Reference} (h : Ascending lo hi rs) {x : String} {n : Int}
    (hx : isConditionName x = false) (hr : ⟨x, n⟩ ∈ rs) : lo (some x) ≤ n ∧ n < hi (some x) := by
  have hc : (⟨x, n⟩ : Reference).counter = some x := Reference.counter_of_ordinary hx
  have hs : (⟨x, n⟩ : Reference).stamp = n := Reference.stamp_of_ordinary hx
  have hm := h.mem _ hr
  rwa [hc, hs] at hm

/-- No version is given out twice. -/
theorem nodup {rs : List Reference} (h : Ascending lo hi rs) : rs.Nodup := by
  refine List.Pairwise.imp (fun {r q} hlt he => ?_) h.pairwise
  subst he
  exact Int.lt_irrefl _ (hlt rfl)

end Ascending
end ProgramGraph
