/-! Finite maps that keep their keys in order of first insertion. -/
namespace ProgramGraph

/-- A key keeps its place when its value is overwritten. -/
structure Table (α : Type) where
  entries : List (String × α)
  nodup : (entries.map Prod.fst).Nodup

namespace Table
variable {α : Type}

def empty : Table α := ⟨[], .nil⟩

instance : EmptyCollection (Table α) := ⟨empty⟩
instance : Inhabited (Table α) := ⟨empty⟩

def toList (t : Table α) : List (String × α) := t.entries

/-- Keys in order of first insertion. -/
def keys (t : Table α) : List String := t.entries.map Prod.fst

def get? (t : Table α) (k : String) : Option α := t.entries.lookup k

def contains (t : Table α) (k : String) : Bool := (t.get? k).isSome

private def set (k : String) (v : α) : List (String × α) → List (String × α)
  | [] => [(k, v)]
  | (k', v') :: rest => if k' = k then (k', v) :: rest else (k', v') :: set k v rest

private theorem mem_keys_set {k x : String} {v : α} :
    ∀ {l : List (String × α)}, x ∈ (set k v l).map Prod.fst ↔ x = k ∨ x ∈ l.map Prod.fst
  | [] => by simp [set]
  | (k', v') :: rest => by
    have ih := mem_keys_set (k := k) (x := x) (v := v) (l := rest)
    by_cases h : k' = k
    · simp [set, h]
    · simp only [set, h, if_false, List.map_cons, List.mem_cons, ih]
      grind

private theorem nodup_keys_set {k : String} {v : α} :
    ∀ {l : List (String × α)}, (l.map Prod.fst).Nodup → ((set k v l).map Prod.fst).Nodup
  | [], _ => by simp [set]
  | (k', v') :: rest, h => by
    rw [List.map_cons, List.nodup_cons] at h
    by_cases hk : k' = k
    · subst hk
      simp only [set, if_true, List.map_cons, List.nodup_cons]
      exact h
    · simp only [set, hk, if_false, List.map_cons, List.nodup_cons, mem_keys_set]
      exact ⟨by grind, nodup_keys_set h.2⟩

def insert (t : Table α) (k : String) (v : α) : Table α :=
  ⟨set k v t.entries, nodup_keys_set t.nodup⟩

/-- Copy every entry of `s` into `t`, overwriting. -/
def absorb (t s : Table α) : Table α :=
  s.entries.foldl (fun t e => t.insert e.1 e.2) t

def ofList (l : List (String × α)) : Table α :=
  l.foldl (fun t e => t.insert e.1 e.2) ∅

private theorem lookup_cons (k x : String) (v : α) (l : List (String × α)) :
    List.lookup x ((k, v) :: l) = if x = k then some v else l.lookup x := by
  rw [List.lookup_cons]
  by_cases h : x = k
  · simp [h]
  · have hb : (x == k) = false := by simpa using h
    simp [h, hb]

private theorem lookup_set {k x : String} {v : α} :
    ∀ {l : List (String × α)}, (set k v l).lookup x = if x = k then some v else l.lookup x
  | [] => lookup_cons k x v []
  | (k', v') :: rest => by
    have ih := lookup_set (k := k) (x := x) (v := v) (l := rest)
    by_cases hk : k' = k
    · subst hk
      simp only [set, if_true, lookup_cons]
      split <;> rfl
    · simp only [set, hk, if_false, lookup_cons, ih]
      by_cases hx : x = k'
      · subst hx
        simp [hk]
      · simp [hx]

theorem get?_insert (t : Table α) (k x : String) (v : α) :
    (t.insert k v).get? x = if x = k then some v else t.get? x :=
  lookup_set

theorem nodup_keys (t : Table α) : t.keys.Nodup := t.nodup

@[simp] theorem get?_empty (x : String) : (∅ : Table α).get? x = none := rfl

theorem mem_keys_iff {t : Table α} {x : String} : x ∈ t.keys ↔ ∃ v, t.get? x = some v := by
  rw [← Option.isSome_iff_exists, get?, List.lookup_isSome_iff]
  simp [keys]

private theorem keys_prefix_set (k : String) (v : α) :
    ∀ l : List (String × α), l.map Prod.fst <+: (set k v l).map Prod.fst
  | [] => List.nil_prefix
  | (k', v') :: rest => by
    unfold set
    split
    · exact List.prefix_rfl
    · exact (List.prefix_cons_inj k').mpr (keys_prefix_set k v rest)

private theorem set_append {k : String} (v : α) {done : List (String × α)}
    (h : k ∉ done.map Prod.fst) (l : List (String × α)) :
    set k v (done ++ l) = done ++ set k v l := by
  induction done with
  | nil => rfl
  | cons e done ih =>
    rw [List.map_cons, List.mem_cons, not_or] at h
    rw [List.cons_append, set, if_neg (Ne.symm h.1), ih h.2, List.cons_append]

/-- Entries are overwritten one after another, those that are new behind the others. -/
private theorem foldl_set {rest : List (String × α)} :
    ∀ (done : List (String × α)) {left : List (String × α)},
      ((done ++ rest).map Prod.fst).Nodup →
      left.map Prod.fst <+: rest.map Prod.fst →
      rest.foldl (fun l e => set e.1 e.2 l) (done ++ left) = done ++ rest := by
  induction rest with
  | nil =>
    intro done left _ h
    rw [List.map_eq_nil_iff.mp (List.prefix_nil.mp h)]
    rfl
  | cons e rest ih =>
    intro done left hnodup h
    have hset : set e.1 e.2 (done ++ left) = (done ++ [e]) ++ left.tail := by
      have hnot : e.1 ∉ done.map Prod.fst := fun hmem => by
        rw [List.map_append, List.nodup_append] at hnodup
        exact hnodup.2.2 e.1 hmem e.1 List.mem_cons_self rfl
      rw [set_append e.2 hnot, List.append_assoc]
      cases left with
      | nil => rfl
      | cons o left =>
        have ho : o.1 = e.1 := (List.cons_prefix_cons.mp h).1
        rw [set, if_pos ho, ho]
        rfl
    have hleft : left.tail.map Prod.fst <+: rest.map Prod.fst := by
      cases left with
      | nil => exact List.nil_prefix
      | cons o left => exact (List.cons_prefix_cons.mp h).2
    rw [List.foldl_cons, hset, ih (done ++ [e]) (by simpa using hnodup) hleft, List.append_assoc]
    rfl

private theorem entries_foldl (t : Table α) (l : List (String × α)) :
    (l.foldl (fun t e => t.insert e.1 e.2) t).entries =
      l.foldl (fun l e => set e.1 e.2 l) t.entries := by
  induction l generalizing t with
  | nil => rfl
  | cons e l ih => exact ih (t.insert e.1 e.2)

theorem keys_prefix_insert (t : Table α) (k : String) (v : α) : t.keys <+: (t.insert k v).keys :=
  keys_prefix_set k v t.entries

/-- To absorb a table whose keys begin with one's own is to become it. -/
theorem absorb_of_prefix_keys {t s : Table α} (h : t.keys <+: s.keys) : t.absorb s = s := by
  have hentries : (t.absorb s).entries = s.entries :=
    (entries_foldl t s.entries).trans (foldl_set [] s.nodup h)
  obtain ⟨entries, nodup⟩ := s
  generalize t.absorb _ = u at hentries
  cases u
  cases hentries
  rfl

end Table
end ProgramGraph
