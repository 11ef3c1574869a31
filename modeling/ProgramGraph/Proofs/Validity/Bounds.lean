import ProgramGraph.Proofs.Operands
import ProgramGraph.Proofs.Validity.RoundTrip

/-! Bounds of versions: a read keeps to the bound, a write raises it by one. -/
namespace ProgramGraph

namespace Table

/-- Versions of named variables from -1 up to a bound. -/
def Within (t : Table Int) (b : Nat) : Prop :=
  ∀ x n, t.get? x = some n → x ≠ "" ∧ -1 ≤ n ∧ n ≤ b

theorem Within.mono {t : Table Int} {b c : Nat} (h : t.Within b) (hc : b ≤ c) : t.Within c := by
  intro x n hn
  have := h x n hn
  exact ⟨this.1, this.2.1, by omega⟩

theorem Within.keys {t : Table Int} {b : Nat} (h : t.Within b) : ∀ x ∈ t.keys, x ≠ "" := by
  intro x hx
  obtain ⟨n, hn⟩ := mem_keys_iff.mp hx
  exact (h x n hn).1

theorem Within.insert {t : Table Int} {b : Nat} {x : String} {n : Int} (h : t.Within b)
    (hx : x ≠ "") (hn : -1 ≤ n ∧ n ≤ b) : (t.insert x n).Within b := by
  intro y m hm
  rw [get?_insert] at hm
  split at hm
  · obtain rfl := Option.some.inj hm
    subst y
    exact ⟨hx, hn⟩
  · exact h y m hm

end Table

namespace Versions

/-- No version is beyond a bound. -/
structure Within (v : Versions) (b : Nat) : Prop where
  baseline : -1 ≤ v.baseline ∧ v.baseline ≤ 0
  latest : v.latest.Within b
  next : ∀ x n, v.next.get? x = some n → 0 ≤ n ∧ n ≤ b + 1

variable {v : Versions} {b c : Nat} {x : String}

theorem within_fresh {n : Int} (hn : -1 ≤ n ∧ n ≤ 0) : (fresh n).Within b := ⟨hn, nofun, nofun⟩

namespace Within

theorem mono (h : v.Within b) (hc : b ≤ c) : v.Within c where
  baseline := h.baseline
  latest := h.latest.mono hc
  next x n hn := by
    have := h.next x n hn
    omega

theorem current (h : v.Within b) (x : String) : -1 ≤ v.current x ∧ v.current x ≤ b := by
  unfold Versions.current
  cases hx : v.latest.get? x with
  | some n => exact (h.latest x n hx).2
  | none =>
    have := h.baseline
    simp only [Option.getD_none]
    omega

theorem upcoming (h : v.Within b) (x : String) : 0 ≤ v.upcoming x ∧ v.upcoming x ≤ b + 1 := by
  unfold Versions.upcoming
  cases hx : v.next.get? x with
  | some n => exact h.next x n hx
  | none =>
    have := h.baseline
    simp only [Option.getD_none]
    omega

theorem pin (h : v.Within b) {n : Int} (hx : x ≠ "") (hn : -1 ≤ n ∧ n ≤ b) :
    (v.pin x n).Within b :=
  ⟨h.baseline, h.latest.insert hx hn, h.next⟩

theorem withLatest {t : Table Int} (h : v.Within b) (ht : t.Within b) :
    Within { v with latest := t } b :=
  ⟨h.baseline, ht, h.next⟩

theorem reads {v' : Versions} {xs : List String} (h : v.Within b) (hr : v.Reads xs v')
    (hx : ∀ x ∈ xs, x ≠ "") : v'.Within b where
  baseline := by
    rw [hr.baseline]
    exact h.baseline
  latest y n hn := by
    by_cases hy : y ∈ xs
    · have hc := h.current y
      rw [← hr.current y, Versions.current, hn] at hc
      exact ⟨hx y hy, hc⟩
    · rw [hr.latest y hy] at hn
      exact h.latest y n hn
  next := by
    rw [hr.next]
    exact h.next

theorem read (h : v.Within b) (hx : x ≠ "") : (v.read x).2.Within b :=
  h.reads (.read v x) (by simpa using hx)

theorem write (h : v.Within b) (hx : x ≠ "") : (v.write x).2.Within (b + 1) := by
  have hn := h.upcoming x
  refine ⟨h.baseline, ?_, fun y m hm => ?_⟩
  · change (v.latest.insert x (v.upcoming x)).Within (b + 1)
    exact (h.latest.mono (Nat.le_succ b)).insert hx ⟨by omega, by omega⟩
  · change (v.next.insert x (v.upcoming x + 1)).get? y = some m at hm
    rw [Table.get?_insert] at hm
    split at hm
    · obtain rfl := Option.some.inj hm
      omega
    · have := h.next y m hm
      omega

end Within

end Versions

/-- Versions below `2 ^ 53` are safe. -/
theorem Reference.Fits.of_le {x : String} {n : Int} {b : Nat} (hx : x ≠ "") (hn : -1 ≤ n ∧ n ≤ b)
    (hb : b < 2 ^ 53) : Reference.Fits ⟨x, n⟩ := by
  refine ⟨hx, Binary64.isSafe_iff.mpr ?_⟩
  unfold Binary64.greatestSafe
  dsimp only
  omega

end ProgramGraph
