import ProgramGraph.Proofs.Reading.Grammar

/-! Where a data tree is no syntax tree: the place in an error leads, step by step, to a value that
is not what the grammar wants there, or to a member that is missing. -/
namespace ProgramGraph

open Shape

namespace Json

/-- One step down. -/
def child? (j : Json) : Segment → Option Json
  | .key k => j.member? k
  | .index i =>
    match j with
    | array items => items[i]?
    | _ => none

/-- The value that a path leads to. -/
def at? (j : Json) : List Segment → Option Json
  | [] => some j
  | s :: path => (j.child? s).bind (·.at? path)

theorem at?_key (j : Json) (key : String) : j.at? [.key key] = j.member? key := by
  rw [at?, child?]
  cases j.member? key <;> rfl

theorem at?_item {j v : Json} {key : String} {i : Nat} (hi : (j.items key)[i]? = some v)
    (path : List Segment) : j.at? (.key key :: .index i :: path) = v.at? path := by
  unfold items at hi
  split at hi
  · rename_i items hitems
    rw [at?, child?, hitems, Option.bind_some, at?, child?, hi, Option.bind_some]
  · cases hi

end Json

/-- What the grammar wants along a path below a value with a role. No path leads below a value that
is not there. -/
inductive Role.Wants : Role → Option Json → List Segment → Wanted → Prop
  | self (r : Role) (v : Option Json) : Wants r v [] r.self
  | plain {r : Role} {j : Json} {key : String} {w : Wanted} (h : j.HasSlot r key (.plain w)) :
      Wants r (some j) [.key key] w
  | node {r s : Role} {j : Json} {key : String} {path : List Segment} {w : Wanted}
      (h : j.HasSlot r key (.node s)) (hw : Wants s (j.member? key) path w) :
      Wants r (some j) (.key key :: path) w
  | optional {r s : Role} {j : Json} {key : String} {path : List Segment} {w : Wanted}
      (h : j.HasSlot r key (.optional s)) (hkey : j.has key = true)
      (hw : Wants s (j.member? key) path w) : Wants r (some j) (.key key :: path) w
  | list {r s : Role} {j : Json} {key : String} (h : j.HasSlot r key (.nodes s)) :
      Wants r (some j) [.key key] .list
  | optionalList {r s : Role} {j : Json} {key : String}
      (h : j.HasSlot r key (.optionalNodes s)) : Wants r (some j) [.key key] .optionalList
  | item {r s : Role} {j v : Json} {key : String} {i : Nat} {path : List Segment} {w : Wanted}
      (h : j.HasSlot r key (.nodes s) ∨ j.HasSlot r key (.optionalNodes s))
      (hi : (j.items key)[i]? = some v) (hw : Wants s (some v) path w) :
      Wants r (some j) (.key key :: .index i :: path) w

/-- What a path leads to is not what is wanted there. -/
def Role.Misfit (r : Role) (v : Option Json) (path : List Segment) : Prop :=
  ∃ w, r.Wants v path w ∧ w.fits (v.bind (·.at? path)) = false

namespace Role

theorem Wants.eq_nil {r : Role} {path : List Segment} {w : Wanted} (h : r.Wants none path w) :
    path = [] := by
  cases h
  rfl

/-- Every step but the last one exists. -/
theorem Wants.isSome_dropLast {r : Role} {v : Option Json} {path : List Segment} {w : Wanted}
    (h : r.Wants v path w) : ∀ j, v = some j → (j.at? path.dropLast).isSome = true := by
  -- A step into a member is followed by others only where the member is there.
  have hstep {s : Role} {j : Json} {key : String} {path : List Segment} {w : Wanted}
      (hw : s.Wants (j.member? key) path w)
      (ih : ∀ v, j.member? key = some v → (v.at? path.dropLast).isSome = true) :
      (j.at? (Segment.key key :: path).dropLast).isSome = true := by
    cases hv : j.member? key with
    | none =>
      rw [hv] at hw
      rw [hw.eq_nil]
      rfl
    | some v =>
      cases path with
      | nil => rfl
      | cons t path =>
        rw [List.dropLast_cons_cons, Json.at?, Json.child?, hv]
        exact ih v hv
  induction h with
  | self => exact fun j _ => rfl
  | plain | list | optionalList => exact fun j _ => rfl
  | node _ hw ih =>
    rintro j ⟨⟩
    exact hstep hw ih
  | optional _ _ hw ih =>
    rintro j ⟨⟩
    exact hstep hw ih
  | @item r s j v key i path w _ hi hw ih =>
    rintro _ ⟨⟩
    cases path with
    | nil =>
      unfold Json.items at hi
      split at hi
      · rename_i items hitems
        simp [Json.at?, Json.child?, hitems]
      · cases hi
    | cons t path =>
      change (j.at? (.key key :: .index i :: (t :: path).dropLast)).isSome = true
      rw [Json.at?_item hi]
      exact ih v rfl

theorem dot_notMem_of_hasSlot {j : Json} {r : Role} {key : String} {slot : Slot}
    (h : j.HasSlot r key slot) : '.' ∉ key.toList := by
  rcases h with h | h
  · have hheader : ∀ p ∈ r.header, '.' ∉ p.1.toList := by cases r <;> decide
    exact hheader _ h
  · have hkeys : ∀ k ∈ keys, '.' ∉ k.toList := by decide
    exact hkeys _ (mem_keys_of_mem_slots _ _ _ h)

theorem dot_notMem_index (i : Nat) : '.' ∉ (Segment.index i).text.toList := by
  intro h
  have hdigit : Char.isDigit '.' = true :=
    Nat.isDigit_of_mem_toDigits (n := i) (b := 10) (by decide) (by decide)
      (by simpa [Segment.text, Nat.repr] using h)
  exact absurd hdigit (by decide)

/-- No segment has a dot of its own. -/
theorem Wants.dot_notMem {r : Role} {v : Option Json} {path : List Segment} {w : Wanted}
    (h : r.Wants v path w) : ∀ s ∈ path, '.' ∉ s.text.toList := by
  induction h with
  | self => exact nofun
  | plain h | list h | optionalList h =>
    exact List.forall_mem_singleton.mpr (dot_notMem_of_hasSlot h)
  | node h _ ih => exact List.forall_mem_cons.mpr ⟨dot_notMem_of_hasSlot h, ih⟩
  | optional h _ _ ih => exact List.forall_mem_cons.mpr ⟨dot_notMem_of_hasSlot h, ih⟩
  | @item _ _ _ _ _ i _ _ h _ _ ih =>
    have hkey := h.elim dot_notMem_of_hasSlot dot_notMem_of_hasSlot
    exact List.forall_mem_cons.mpr ⟨hkey, List.forall_mem_cons.mpr ⟨dot_notMem_index i, ih⟩⟩

namespace Misfit
variable {r s : Role} {j v : Json} {key : String} {path : List Segment} {i : Nat}

/-- Whatever its role, a value has to be an object. -/
theorem self {v : Option Json} (h : ∀ members, v ≠ some (.object members)) : r.Misfit v [] := by
  refine ⟨r.self, .self r v, ?_⟩
  rcases v with _ | _ | _ | _ | _ | _ | _ | members
  case some.object => exact absurd rfl (h members)
  all_goals cases r <;> rfl

theorem plain {w : Wanted} (h : j.HasSlot r key (.plain w))
    (hfits : w.fits (j.member? key) = false) : r.Misfit (some j) [.key key] := by
  refine ⟨w, .plain h, ?_⟩
  rw [Option.bind_some, Json.at?_key]
  exact hfits

theorem node (h : j.HasSlot r key (.node s)) (hs : s.Misfit (j.member? key) path) :
    r.Misfit (some j) (.key key :: path) := by
  obtain ⟨w, hw, hfits⟩ := hs
  exact ⟨w, .node h hw, hfits⟩

theorem optional (h : j.HasSlot r key (.optional s)) (hkey : j.has key = true)
    (hs : s.Misfit (j.member? key) path) : r.Misfit (some j) (.key key :: path) := by
  obtain ⟨w, hw, hfits⟩ := hs
  exact ⟨w, .optional h hkey hw, hfits⟩

theorem list (h : j.HasSlot r key (.nodes s))
    (hnot : ∀ items, j.member? key ≠ some (.array items)) : r.Misfit (some j) [.key key] := by
  refine ⟨.list, .list h, ?_⟩
  rw [Option.bind_some, Json.at?_key]
  cases hv : j.member? key with
  | none => rfl
  | some v =>
    cases v with
    | array items => exact absurd hv (hnot items)
    | _ => rfl

theorem optionalList (h : j.HasSlot r key (.optionalNodes s)) (hkey : j.member? key = some v)
    (hnot : ∀ items, v ≠ .array items) : r.Misfit (some j) [.key key] := by
  refine ⟨.optionalList, .optionalList h, ?_⟩
  rw [Option.bind_some, Json.at?_key, hkey]
  cases v with
  | array items => exact absurd rfl (hnot items)
  | _ => rfl

theorem item (h : j.HasSlot r key (.nodes s) ∨ j.HasSlot r key (.optionalNodes s))
    (hi : (j.items key)[i]? = some v) (hs : s.Misfit (some v) path) :
    r.Misfit (some j) (.key key :: .index i :: path) := by
  obtain ⟨w, hw, hfits⟩ := hs
  refine ⟨w, .item h hi hw, ?_⟩
  rw [Option.bind_some, Json.at?_item hi]
  exact hfits

end Misfit
end Role

end ProgramGraph
