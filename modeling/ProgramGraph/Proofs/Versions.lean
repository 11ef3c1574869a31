import ProgramGraph.Lowering.Versions

/-! What reads and writes do to versions. -/
namespace ProgramGraph.Versions

/-- The version that a read sees. -/
def current (v : Versions) (x : String) : Int := (v.latest.get? x).getD v.baseline

/-- The version that a write gives. -/
def upcoming (v : Versions) (x : String) : Int := (v.next.get? x).getD (v.baseline + 1)

/-- Reads leave everything as it is but for variables pinned where they stood. -/
structure Same (v v' : Versions) : Prop where
  baseline : v'.baseline = v.baseline
  current : ∀ x, v'.current x = v.current x
  next : v'.next = v.next

theorem Same.refl (v : Versions) : Same v v := ⟨rfl, fun _ => rfl, rfl⟩

theorem Same.trans {v v' v'' : Versions} (h : Same v v') (h' : Same v' v'') : Same v v'' where
  baseline := h'.baseline.trans h.baseline
  current x := (h'.current x).trans (h.current x)
  next := h'.next.trans h.next

theorem Same.upcoming {v v' : Versions} (h : Same v v') (x : String) :
    v'.upcoming x = v.upcoming x := by
  unfold Versions.upcoming
  rw [h.next, h.baseline]

theorem current_pin (v : Versions) (x y : String) (n : Int) :
    (v.pin x n).current y = if y = x then n else v.current y := by
  unfold current pin
  rw [Table.get?_insert]
  split <;> rfl

theorem read_fst (v : Versions) (x : String) : (v.read x).1 = v.current x := by
  unfold read current
  cases v.latest.get? x <;> rfl

/-- A read is no more than a pin at the current version. -/
theorem same_read (v : Versions) (x : String) : Same v (v.read x).2 := by
  unfold read
  cases hx : v.latest.get? x with
  | some n => exact Same.refl v
  | none =>
    refine ⟨rfl, fun y => ?_, rfl⟩
    change (v.pin x v.baseline).current y = v.current y
    rw [current_pin]
    split
    · simp [current, *]
    · rfl

theorem get?_latest_read (v : Versions) (x y : String) :
    (v.read x).2.latest.get? y = if y = x then some (v.current x) else v.latest.get? y := by
  unfold read current
  cases hx : v.latest.get? x with
  | some n =>
    by_cases h : y = x
    · subst h; simp [hx]
    · simp [h]
  | none => simp [Table.get?_insert]

theorem write_fst (v : Versions) (x : String) : (v.write x).1 = v.upcoming x := rfl

theorem get?_latest_write (v : Versions) (x y : String) :
    (v.write x).2.latest.get? y = if y = x then some (v.upcoming x) else v.latest.get? y :=
  Table.get?_insert _ _ _ _

theorem current_write (v : Versions) (x y : String) :
    (v.write x).2.current y = if y = x then v.upcoming x else v.current y := by
  unfold current
  rw [get?_latest_write]
  split <;> rfl

theorem upcoming_write (v : Versions) (x y : String) :
    (v.write x).2.upcoming y = if y = x then v.upcoming x + 1 else v.upcoming y := by
  unfold write upcoming
  rw [Table.get?_insert]
  split <;> rfl

end ProgramGraph.Versions
