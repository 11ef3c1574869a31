import ProgramGraph.Lowering.Registry

/-! Names from a registry never repeat. -/
namespace ProgramGraph.Registry

/-- The next value of a counter. -/
def count (r : Registry) (key : String) : Nat := (r.counters.get? key).getD 0

/-- The name that a base receives with a value of its counter. -/
def nameOf (base : String) (n : Nat) : String := base ++ "_" ++ toString n

/-- What comes later has counted further and claimed more. -/
structure Before (r r' : Registry) : Prop where
  count : ∀ key, r.count key ≤ r'.count key
  claimed : ∀ x ∈ r.claimed, x ∈ r'.claimed

theorem Before.refl (r : Registry) : Before r r := ⟨fun _ => Nat.le_refl _, fun _ h => h⟩

theorem Before.trans {r r' r'' : Registry} (h : Before r r') (h' : Before r' r'') : Before r r'' where
  count key := Nat.le_trans (h.count key) (h'.count key)
  claimed x hx := h'.claimed x (h.claimed x hx)

theorem count_take (r : Registry) (key x : String) :
    (r.take key).2.count x = if x = key then r.count key + 1 else r.count x := by
  unfold take count
  rw [Table.get?_insert]
  split <;> rfl

theorem next_fst (r : Registry) (base : String) : (r.next base).1 = nameOf base (r.count base) := rfl

theorem count_next (r : Registry) (base x : String) :
    (r.next base).2.count x = if x = base then r.count base + 1 else r.count x :=
  count_take r base x

theorem before_take (r : Registry) (key : String) : Before r (r.take key).2 where
  count x := by
    rw [count_take]
    split
    · subst x; omega
    · exact Nat.le_refl _
  claimed _ h := h

theorem before_next (r : Registry) (base : String) : Before r (r.next base).2 :=
  before_take r base

@[simp] theorem count_emit (r : Registry) (text key : String) :
    (r.emit text).count key = r.count key := rfl

theorem before_emit (r : Registry) (text : String) : Before r (r.emit text) where
  count _ := Nat.le_refl _
  claimed _ h := h

/-- A lambda is written under a name of its own. -/
theorem before_render (r : Registry) (base text : String) :
    Before r ((r.next base).2.emit text) :=
  (before_next r base).trans (before_emit _ text)

theorem claim?_eq_some {r r' : Registry} {name : String} (h : r.claim? name = some r') :
    name ∉ r.claimed ∧ r' = { r with claimed := name :: r.claimed } := by
  unfold claim? at h
  split at h
  · cases h
  · rename_i hc
    exact ⟨by simpa using hc, (Option.some.inj h).symm⟩

theorem before_claim? {r r' : Registry} {name : String} (h : r.claim? name = some r') :
    Before r r' := by
  obtain ⟨-, rfl⟩ := claim?_eq_some h
  exact ⟨fun _ => Nat.le_refl _, fun _ hx => List.mem_cons_of_mem _ hx⟩

/-- The last separator tells what stands before it from what stands behind it. -/
theorem last_separator_unique {sep : Char} {as bs cs ds : List Char} (hc : sep ∉ cs) (hd : sep ∉ ds)
    (h : as ++ sep :: cs = bs ++ sep :: ds) : as = bs ∧ cs = ds := by
  rcases List.append_eq_append_iff.mp h with ⟨m, rfl, hm⟩ | ⟨m, rfl, hm⟩
  · cases m with
    | nil => exact ⟨by simp, by simpa using hm⟩
    | cons a m =>
      obtain ⟨rfl, rfl⟩ := List.cons.inj hm
      exact absurd (by simp) hc
  · cases m with
    | nil => exact ⟨by simp, by simpa using hm.symm⟩
    | cons a m =>
      obtain ⟨rfl, rfl⟩ := List.cons.inj hm
      exact absurd (by simp) hd

private theorem toList_nameOf (base : String) (n : Nat) :
    (nameOf base n).toList = base.toList ++ '_' :: Nat.toDigits 10 n := by
  unfold nameOf
  rw [String.toList_append, String.toList_append, Nat.toString_eq_ofList_toDigits,
    String.toList_ofList, String.toList_ofList, List.append_assoc]
  rfl

/-- The last underscore of a name tells its base from its number. -/
theorem nameOf_inj {base base' : String} {n n' : Nat} (h : nameOf base n = nameOf base' n') :
    base = base' ∧ n = n' := by
  have hl := congrArg String.toList h
  rw [toList_nameOf, toList_nameOf] at hl
  obtain ⟨hb, hn⟩ := last_separator_unique Nat.underscore_not_in_toDigits
    Nat.underscore_not_in_toDigits hl
  refine ⟨String.toList_inj.mp hb, ?_⟩
  have ho := congrArg (Nat.ofDigitChars 10 · 0) hn
  rwa [Nat.ofDigitChars_ten_toDigits, Nat.ofDigitChars_ten_toDigits] at ho

/-- Names given out between two states of a registry, each once. -/
structure Generated (r : Registry) (names : List String) (r' : Registry) : Prop where
  before : Before r r'
  mem : ∀ x ∈ names, ∃ base n, x = nameOf base n ∧ r.count base ≤ n ∧ n < r'.count base
  nodup : names.Nodup

theorem Generated.nil {r r' : Registry} (h : Before r r') : Generated r [] r' :=
  ⟨h, nofun, .nil⟩

theorem Generated.next (r : Registry) (base : String) :
    Generated r [(r.next base).1] (r.next base).2 where
  before := before_next r base
  mem x hx := by
    obtain rfl := List.mem_singleton.mp hx
    refine ⟨base, r.count base, rfl, Nat.le_refl _, ?_⟩
    rw [count_next, if_pos rfl]
    exact Nat.lt_succ_self _
  nodup := by simp

theorem Generated.append {r r' r'' : Registry} {xs ys : List String} (h : Generated r xs r')
    (h' : Generated r' ys r'') : Generated r (xs ++ ys) r'' where
  before := h.before.trans h'.before
  mem x hx := by
    rcases List.mem_append.mp hx with hx | hx
    · obtain ⟨base, n, rfl, hl, hu⟩ := h.mem x hx
      exact ⟨base, n, rfl, hl, Nat.lt_of_lt_of_le hu (h'.before.count base)⟩
    · obtain ⟨base, n, rfl, hl, hu⟩ := h'.mem x hx
      exact ⟨base, n, rfl, Nat.le_trans (h.before.count base) hl, hu⟩
  nodup := by
    refine List.nodup_append.mpr ⟨h.nodup, h'.nodup, fun x hx y hy hxy => ?_⟩
    subst hxy
    obtain ⟨base, n, rfl, -, hu⟩ := h.mem x hx
    obtain ⟨base', n', he, hl, -⟩ := h'.mem _ hy
    obtain ⟨rfl, rfl⟩ := nameOf_inj he
    omega

/-- Names claimed between two states of a registry, each once. -/
structure Claimed (r : Registry) (names : List String) (r' : Registry) : Prop where
  before : Before r r'
  mem : ∀ x ∈ names, x ∉ r.claimed ∧ x ∈ r'.claimed
  nodup : names.Nodup

theorem Claimed.nil {r r' : Registry} (h : Before r r') : Claimed r [] r' :=
  ⟨h, nofun, .nil⟩

theorem Claimed.claim {r r' : Registry} {name : String} (h : r.claim? name = some r') :
    Claimed r [name] r' where
  before := before_claim? h
  mem x hx := by
    obtain rfl := List.mem_singleton.mp hx
    obtain ⟨hn, rfl⟩ := claim?_eq_some h
    exact ⟨hn, List.mem_cons_self⟩
  nodup := by simp

theorem Claimed.append {r r' r'' : Registry} {xs ys : List String} (h : Claimed r xs r')
    (h' : Claimed r' ys r'') : Claimed r (xs ++ ys) r'' where
  before := h.before.trans h'.before
  mem x hx := by
    rcases List.mem_append.mp hx with hx | hx
    · exact ⟨(h.mem x hx).1, h'.before.claimed x (h.mem x hx).2⟩
    · exact ⟨fun hr => (h'.mem x hx).1 (h.before.claimed x hr), (h'.mem x hx).2⟩
  nodup := by
    refine List.nodup_append.mpr ⟨h.nodup, h'.nodup, fun x hx y hy hxy => ?_⟩
    subst hxy
    exact (h'.mem x hy).1 (h.mem x hx).2

end ProgramGraph.Registry
