import ProgramGraph.Proofs.Reading.Grammar

/-! Going through the nodes of a data tree, each with the role that the grammar gives it. -/
namespace ProgramGraph

/-- Whether no nodes stand in a slot. -/
def Slot.isPlain : Slot → Bool
  | plain _ => true
  | _ => false

namespace Json

mutual

/-- Change the nodes of a tree by their roles, those below a node before the node itself. -/
def mapNodes (f : Role → Json → Json) (r : Role) : Json → Json
  | object members =>
    f r (object (mapMembers f (r.slots ((object members).nodeType?.getD "")) members))
  | j => j

def mapMembers (f : Role → Json → Json) (slots : List (String × Slot)) :
    List (String × Json) → List (String × Json)
  | [] => []
  | (key, v) :: rest =>
    (key, match slots.lookup key with
      | some (.node r) | some (.optional r) => mapNodes f r v
      | some (.nodes r) | some (.optionalNodes r) => mapItems f r v
      | some (.plain _) | none => v) :: mapMembers f slots rest

def mapItems (f : Role → Json → Json) (r : Role) : Json → Json
  | array items => array (mapEach f r items)
  | j => j

def mapEach (f : Role → Json → Json) (r : Role) : List Json → List Json
  | [] => []
  | j :: rest => mapNodes f r j :: mapEach f r rest

end

mutual

/-- Whether all nodes of a tree satisfy a condition on their roles. -/
def everyNode (p : Role → Json → Bool) (r : Role) : Json → Bool
  | object members =>
    p r (object members) && everyMember p (r.slots ((object members).nodeType?.getD "")) members
  | _ => true

def everyMember (p : Role → Json → Bool) (slots : List (String × Slot)) :
    List (String × Json) → Bool
  | [] => true
  | (key, v) :: rest =>
    (match slots.lookup key with
      | some (.node r) | some (.optional r) => everyNode p r v
      | some (.nodes r) | some (.optionalNodes r) => everyItem p r v
      | some (.plain _) | none => true) && everyMember p slots rest

def everyItem (p : Role → Json → Bool) (r : Role) : Json → Bool
  | array items => everyOne p r items
  | _ => true

def everyOne (p : Role → Json → Bool) (r : Role) : List Json → Bool
  | [] => true
  | j :: rest => everyNode p r j && everyOne p r rest

end

/-- A member that is in a slot, after the nodes in it have changed. -/
def inSlot (f : Role → Json → Json) : Option Slot → Json → Json
  | some (.node r), v | some (.optional r), v => v.mapNodes f r
  | some (.nodes r), v | some (.optionalNodes r), v => v.mapItems f r
  | some (.plain _), v | none, v => v

/-- Whether all nodes of a member in a slot satisfy a condition. -/
def everyInSlot (p : Role → Json → Bool) : Option Slot → Json → Bool
  | some (.node r), v | some (.optional r), v => v.everyNode p r
  | some (.nodes r), v | some (.optionalNodes r), v => v.everyItem p r
  | some (.plain _), _ | none, _ => true

/-- Change the nodes below a node. -/
def mapBelow (f : Role → Json → Json) (r : Role) : Json → Json
  | object members =>
    object (mapMembers f (r.slots ((object members).nodeType?.getD "")) members)
  | j => j

variable {f : Role → Json → Json} {p : Role → Json → Bool} {slots : List (String × Slot)} {r : Role}
  {j : Json} {type key : String}

theorem mapEach_eq (items : List Json) : mapEach f r items = items.map (mapNodes f r) := by
  induction items with
  | nil => rfl
  | cons j rest ih => rw [mapEach, ih, List.map_cons]

theorem everyOne_eq (items : List Json) : everyOne p r items = items.all (everyNode p r) := by
  induction items with
  | nil => rfl
  | cons j rest ih => rw [everyOne, ih, List.all_cons]

theorem mapMembers_cons (v : Json) (rest : List (String × Json)) :
    mapMembers f slots ((key, v) :: rest) =
      (key, inSlot f (slots.lookup key) v) :: mapMembers f slots rest := by
  rw [mapMembers, inSlot.eq_def]
  cases slots.lookup key with
  | none => rfl
  | some slot => cases slot <;> rfl

/-- Nothing changes where no nodes stand. -/
theorem mapMembers_of_isPlain (h : slots.all (·.2.isPlain) = true)
    (members : List (String × Json)) : mapMembers f slots members = members := by
  have hslot (key : String) (v : Json) : inSlot f (slots.lookup key) v = v := by
    cases hkey : slots.lookup key with
    | none => rfl
    | some slot =>
      have hplain := List.all_eq_true.mp h _ (mem_of_lookup hkey)
      cases slot with
      | plain w => rfl
      | _ => cases hplain
  induction members with
  | nil => rfl
  | cons e rest ih => rw [mapMembers_cons, hslot, ih]

theorem lookup_mapMembers (members : List (String × Json)) :
    (mapMembers f slots members).lookup key =
      (members.lookup key).map (inSlot f (slots.lookup key)) := by
  induction members with
  | nil => rfl
  | cons e rest ih =>
    obtain ⟨k, v⟩ := e
    rw [mapMembers_cons, List.lookup_cons, List.lookup_cons]
    by_cases hk : key = k
    · rw [hk, beq_self_eq_true]
      rfl
    · rw [beq_false_of_ne hk, ih]

theorem everyInSlot_of_lookup {members : List (String × Json)} {v : Json}
    (h : everyMember p slots members = true) (hv : members.lookup key = some v) :
    everyInSlot p (slots.lookup key) v = true := by
  induction members with
  | nil => cases hv
  | cons e rest ih =>
    obtain ⟨k, u⟩ := e
    have hcons : everyMember p slots ((k, u) :: rest) =
        (everyInSlot p (slots.lookup k) u && everyMember p slots rest) := by
      rw [everyMember, everyInSlot.eq_def]
      cases slots.lookup k with
      | none => rfl
      | some slot => cases slot <;> rfl
    rw [hcons, Bool.and_eq_true] at h
    rw [List.lookup_cons] at hv
    by_cases hk : key = k
    · rw [hk, beq_self_eq_true] at hv
      obtain rfl := Option.some.inj hv
      rw [hk]
      exact h.1
    · rw [beq_false_of_ne hk] at hv
      exact ih h.2 hv

/-- Slots are for other members than those of headers. -/
theorem lookup_slots_eq_none (r : Role) (type : String) (hkey : key ∉ Role.keys) :
    (r.slots type).lookup key = none := by
  rw [List.lookup_eq_none_iff]
  rintro ⟨k, slot⟩ hk
  have hne : key ≠ k := by
    rintro rfl
    exact hkey (Role.mem_keys_of_mem_slots r type _ hk)
  simpa using hne

theorem member?_mapBelow :
    (j.mapBelow f r).member? key =
      (j.member? key).map (inSlot f ((r.slots (j.nodeType?.getD "")).lookup key)) := by
  cases j with
  | object members => exact lookup_mapMembers members
  | _ => rfl

theorem member?_mapBelow_of_notMem (hkey : key ∉ Role.keys) :
    (j.mapBelow f r).member? key = j.member? key := by
  rw [member?_mapBelow, lookup_slots_eq_none r _ hkey]
  exact congrFun Option.map_id _

@[simp]
theorem nodeType?_mapBelow : (j.mapBelow f r).nodeType? = j.nodeType? := by
  rw [nodeType?, member?_mapBelow_of_notMem (by decide), nodeType?]

theorem mapItems_eq_self (h : ∀ v : Json, v.mapNodes f r = v) (v : Json) :
    v.mapItems f r = v := by
  cases v with
  | array items =>
    rw [mapItems, mapEach_eq, funext h, List.map_id']
  | _ => rfl

theorem mapBelow_of_isPlain (h : (r.slots (j.nodeType?.getD "")).all (·.2.isPlain) = true) :
    j.mapBelow f r = j := by
  cases j with
  | object members => exact congrArg object (mapMembers_of_isPlain h members)
  | _ => rfl

theorem of_everyNode (h : j.everyNode p r = true) (htype : j.nodeType? = some type) :
    p r j = true := by
  obtain ⟨members, rfl⟩ := exists_object htype
  rw [everyNode, Bool.and_eq_true] at h
  exact h.1

theorem everyInSlot_of_everyNode {v : Json} (h : j.everyNode p r = true)
    (hv : j.member? key = some v) :
    everyInSlot p ((r.slots (j.nodeType?.getD "")).lookup key) v = true := by
  cases j with
  | object members =>
    rw [everyNode, Bool.and_eq_true] at h
    exact everyInSlot_of_lookup h.2 hv
  | _ => cases hv

end Json
end ProgramGraph
