import ProgramGraph.Proofs.Computation
import ProgramGraph.Proofs.Validity.Reading

/-! Parts of nodes: what was looked up in a data tree that could be read. -/
namespace ProgramGraph

open Shape

namespace Json

/-- The class name of a node. -/
def nodeType? (j : Json) : Option String :=
  match j.member? "_type" with
  | some (.string s) => some s
  | _ => none

/-- The items of a member that is an array. -/
def items (j : Json) (key : String) : List Json :=
  match j.member? key with
  | some (.array items) => items
  | _ => []

/-- Whether a member is there, and not null. -/
def has (j : Json) (key : String) : Bool :=
  match j.member? key with
  | none | some .null => false
  | some _ => true

theorem mem_of_lookup {α : Type} {members : List (String × α)} {key : String} {a : α}
    (h : members.lookup key = some a) : (key, a) ∈ members := by
  obtain ⟨before, after, rfl, -⟩ := List.lookup_eq_some_iff.mp h
  exact List.mem_append_right _ List.mem_cons_self

theorem exists_object {j : Json} {type : String} (h : j.nodeType? = some type) :
    ∃ members, j = object members := by
  cases j with
  | object members => exact ⟨members, rfl⟩
  | _ => cases h

end Json

theorem Shape.string_eq_ok {j : Option Json} {s : String} (h : string j = .ok s) :
    j = some (.string s) := by
  unfold string at h
  split at h
  · rw [Checked.ok.inj h]
  · cases h

/-- Each argument of a run that succeeds has a result. -/
theorem exists_of_mapM {ε α β : Type} {f : α → Except ε β} {as : List α} {bs : List β}
    (h : as.mapM f = .ok bs) {a : α} (ha : a ∈ as) : ∃ b ∈ bs, f a = .ok b := by
  induction as generalizing bs with
  | nil => cases ha
  | cons c as ih =>
    rw [List.mapM_cons] at h
    obtain ⟨first, hfirst, h⟩ := except_bind_eq_ok.mp h
    obtain ⟨others, hothers, h⟩ := except_bind_eq_ok.mp h
    obtain rfl := except_pure_eq_ok.mp h
    rcases List.mem_cons.mp ha with rfl | ha
    · exact ⟨first, List.mem_cons_self, hfirst⟩
    · obtain ⟨b, hb, hf⟩ := ih hothers ha
      exact ⟨b, List.mem_cons_of_mem _ hb, hf⟩

namespace Reading
variable {j : Json} {place : Place} {key : String}

theorem map_member? (j : Json) (key : String) :
    (member? j key).map Subtype.val = j.member? key := by
  unfold member?
  split <;> simp_all

theorem required_eq_ok {p : Part j} (h : required j place key = .ok p) :
    j.member? key = some p.1 := by
  have hmap := map_member? j key
  unfold required at h
  cases hp : member? j key with
  | none => rw [hp] at h; cases h
  | some q =>
    rw [hp] at h hmap
    obtain rfl := Except.ok.inj h
    exact hmap.symm

theorem list_eq_ok {ps : List (Part j)} (h : list j place key = .ok ps) :
    j.member? key = some (.array (ps.map Subtype.val)) := by
  have hmap := map_member? j key
  unfold list at h
  cases hp : member? j key with
  | none => rw [hp] at h; cases h
  | some q =>
    rw [hp] at h hmap
    rw [← hmap]
    obtain ⟨v, hv⟩ := q
    cases v with
    | array items =>
      obtain rfl := Except.ok.inj h
      simp
    | _ => cases h

theorem items_of_list {ps : List (Part j)} (h : list j place key = .ok ps) :
    j.items key = ps.map Subtype.val := by
  unfold Json.items
  rw [list_eq_ok h]

theorem isSome_present? (j : Json) (key : String) : (present? j key).isSome = j.has key := by
  have hmap := map_member? j key
  unfold present? Json.has
  cases hp : member? j key with
  | none => rw [← hmap, hp]; rfl
  | some q =>
    rw [← hmap, hp]
    obtain ⟨v, hv⟩ := q
    cases v <;> rfl

/-- What the header of a node says. -/
theorem header_eq_ok_iff {h : Header} :
    header (some j) = .ok h ↔
      j.nodeType? = some h.type ∧ Shape.optional int (j.member? "lineno") = .ok h.line := by
  constructor
  · intro hh
    unfold header record at hh
    split at hh
    · rename_i members hmembers
      obtain ⟨g, line, hg, hline, rfl⟩ := Checked.seq_eq_ok hh
      obtain ⟨type, htype, rfl⟩ := Checked.map_eq_ok hg
      obtain rfl := Option.some.inj hmembers
      have hmember : (Json.object members).member? "_type" = some (.string type) :=
        string_eq_ok (Checked.under_eq_ok htype)
      rw [Json.nodeType?, hmember]
      exact ⟨rfl, Checked.under_eq_ok hline⟩
    · cases hh
  · rintro ⟨htype, hline⟩
    obtain ⟨members, rfl⟩ := Json.exists_object htype
    unfold Json.nodeType? at htype
    split at htype
    · rename_i type hmember
      obtain rfl := Option.some.inj htype
      change Header.mk <$> (string ((Json.object members).member? "_type")).under _ <*>
        (Shape.optional int ((Json.object members).member? "lineno")).under _ = _
      rw [hmember, hline]
      rfl
    · cases htype

theorem nodeType?_of_header {h : Header} (hh : settle place (header j) = .ok h) :
    j.nodeType? = some h.type :=
  (header_eq_ok_iff.mp (settle_eq_ok hh)).1

theorem string_of_field {s : String} (h : field j place key string = .ok s) :
    j.member? key = some (.string s) :=
  string_eq_ok (settle_eq_ok h)

/-- Each item was read. -/
theorem exists_of_each {α β : Type} {items : List α} {read : α → Place → Result β} {bs : List β}
    (h : each place items read = .ok bs) {a : α} (ha : a ∈ items) :
    ∃ b ∈ bs, ∃ p, read a p = .ok b := by
  obtain ⟨i, hi⟩ := List.getElem?_of_mem ha
  have hmem : (a, i) ∈ items.zipIdx := List.mem_zipIdx_iff_getElem?.mpr hi
  obtain ⟨b, hb, hread⟩ := exists_of_mapM h hmem
  exact ⟨b, hb, place.item i, hread⟩

end Reading
end ProgramGraph
