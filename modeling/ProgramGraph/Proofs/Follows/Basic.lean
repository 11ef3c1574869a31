import ProgramGraph.Proofs.Ascending
import ProgramGraph.Proofs.Layout
import ProgramGraph.Proofs.Operands

/-! The versions that a body reads and writes, record by record: every read finds what is visible or
was written before, every write gives a new version. -/
namespace ProgramGraph

namespace Graph

def Input.reference? : Input → Option Reference
  | .ref r => some r
  | .function _ => none

def RangeBound.reads : RangeBound → List Reference
  | .literal _ => []
  | .ref r => [r]

def Range.reads (r : Range) : List Reference := r.start.reads ++ r.stop.reads

/-- The versions that a record names as its inputs. -/
def Record.reads : Record → List Reference
  | .value _ _ input => input.filterMap Input.reference?
  | .call _ input => input
  | .loop .. => []

/-- The version that a record computes. -/
def Record.output? : Record → Option Reference
  | .value _ output _ => some output
  | .call .. | .loop .. => none

end Graph

open ProgramGraph.Graph

/-- A record, the versions it refers to and the one it gives. The call of a loop refers to the
versions in its range and gives one to its index. -/
structure Item where
  record : Record
  reads : List Reference
  write : Option Reference
deriving DecidableEq

def Graph.Record.item (r : Record) : Item := ⟨r, r.reads, r.output?⟩

def Layout.items : Layout → List Item
  | .nil => []
  | .simple _ made rest => made.records.map Record.item ++ rest.items
  | .branch _ _ tested thenPart _ elsePart _ decisions rest =>
    tested.records.map Record.item ++ thenPart.items ++ elsePart.items ++
      decisions.records.map Record.item ++ rest.items
  | .loop _ index range name inputs _ rest => ⟨.loop name inputs, range.reads, some index⟩ :: rest.items
  | .definition _ _ _ _ rest => rest.items

/-- The versions that items give. -/
def writes (items : List Item) : List Reference := items.filterMap Item.write

theorem writes_append (is js : List Item) : writes (is ++ js) = writes is ++ writes js :=
  List.filterMap_append

private theorem map_record_item (rs : List Record) : (rs.map Record.item).map Item.record = rs := by
  induction rs with
  | nil => rfl
  | cons r rs ih => exact congrArg (r :: ·) ih

theorem Layout.items_record (L : Layout) : L.items.map Item.record = L.records := by
  induction L with
  | nil => rfl
  | simple s made rest ih =>
    change _ = made.records ++ rest.records
    rw [← ih, items, List.map_append, map_record_item]
  | branch test condition tested T v E w decisions rest ihT ihE ih =>
    change _ = tested.records ++ T.records ++ E.records ++ decisions.records ++ rest.records
    rw [← ihT, ← ihE, ← ih]
    simp only [items, List.map_append, map_record_item]
  | loop iter index range name inputs B rest _ ih => exact congrArg (_ :: ·) ih
  | definition name input vars B rest _ ih => exact ih

/-- Every item reads only what is known from the start or written by an item before it. -/
def Dominated (known : Reference → Prop) : List Item → Prop
  | [] => True
  | i :: rest => (∀ r ∈ i.reads, known r) ∧ Dominated (fun r => known r ∨ i.write = some r) rest

theorem Dominated.mono {known known' : Reference → Prop} {items : List Item}
    (h : Dominated known items) (hk : ∀ r, known r → known' r) : Dominated known' items := by
  induction items generalizing known known' with
  | nil => trivial
  | cons i rest ih => exact ⟨fun r hr => hk r (h.1 r hr), ih h.2 fun r => Or.imp_left (hk r)⟩

theorem Dominated.append {known : Reference → Prop} {is js : List Item} (h : Dominated known is)
    (h' : Dominated (fun r => known r ∨ r ∈ writes is) js) : Dominated known (is ++ js) := by
  induction is generalizing known with
  | nil => exact h'.mono fun r hr => hr.elim id nofun
  | cons i rest ih =>
    refine ⟨h.1, ih h.2 (h'.mono fun r hr => ?_)⟩
    rcases hr with hr | hr
    · exact .inl (.inl hr)
    · obtain ⟨j, hj, hw⟩ := List.mem_filterMap.mp hr
      rcases List.mem_cons.mp hj with rfl | hj
      · exact .inl (.inr hw)
      · exact .inr (List.mem_filterMap.mpr ⟨j, hj, hw⟩)

theorem Dominated.of_known {known : Reference → Prop} {items : List Item}
    (h : ∀ i ∈ items, ∀ r ∈ i.reads, known r) : Dominated known items := by
  induction items generalizing known with
  | nil => trivial
  | cons i rest ih =>
    exact ⟨h i List.mem_cons_self, ih fun j hj r hr => .inl (h j (List.mem_cons_of_mem _ hj) r hr)⟩

theorem Dominated.split {known : Reference → Prop} {pre post : List Item} {i : Item}
    (h : Dominated known (pre ++ i :: post)) : ∀ r ∈ i.reads, known r ∨ r ∈ writes pre := by
  induction pre generalizing known with
  | nil => exact fun r hr => .inl (h.1 r hr)
  | cons j pre ih =>
    intro r hr
    rw [writes, List.filterMap_cons]
    rcases ih h.2 r hr with (hk | hw) | hw
    · exact .inl hk
    · rw [hw]
      exact .inr List.mem_cons_self
    · cases j.write with
      | none => exact .inr hw
      | some q => exact .inr (List.mem_cons_of_mem _ hw)

/-- An ordinary variable at the version that a read sees. -/
def LoweringState.Visible (s : LoweringState) (r : Reference) : Prop :=
  isConditionName r.name = false ∧ r.index = s.versions.current r.name

/-- Conditions are known as such wherever their names are visible. -/
structure LoweringState.Tracked (s : LoweringState) : Prop where
  named : ∀ x ∈ s.scope.conditions, isConditionName x = true
  latest : ∀ x, isConditionName x = true → (s.versions.latest.get? x).isSome →
    x ∈ s.scope.conditions

/-- What the items of a part change in the state of its scope. -/
structure Advances (s : LoweringState) (items : List Item) (s' : LoweringState) : Prop where
  owner : s'.owner = s.owner
  baseline : s'.versions.baseline = s.versions.baseline
  conditions : ∀ x ∈ s.scope.conditions, x ∈ s'.scope.conditions
  seen : ∀ x, (s.versions.latest.get? x).isSome → (s'.versions.latest.get? x).isSome
  ascending : Ascending s.clock s'.clock (writes items)
  sole : ∀ r ∈ writes items, isConditionName r.name = true → r.index = 0
  current : ∀ x, isConditionName x = false → s'.versions.current x = s.versions.current x ∨
    ⟨x, s'.versions.current x⟩ ∈ writes items
  tracked : s.Tracked → s'.Tracked

namespace Advances
variable {s s' s'' : LoweringState} {is js : List Item}

theorem append (h : Advances s is s') (h' : Advances s' js s'') : Advances s (is ++ js) s'' where
  owner := h'.owner.trans h.owner
  baseline := h'.baseline.trans h.baseline
  conditions x hx := h'.conditions x (h.conditions x hx)
  seen x hx := h'.seen x (h.seen x hx)
  ascending := writes_append is js ▸ h.ascending.append h'.ascending
  sole r hr := (List.mem_append.mp (writes_append is js ▸ hr)).elim (h.sole r) (h'.sole r)
  current x hx := by
    rw [writes_append, List.mem_append]
    rcases h'.current x hx with he | hw
    · rw [he]
      exact (h.current x hx).imp_right .inl
    · exact .inr (.inr hw)
  tracked ht := h'.tracked (h.tracked ht)

theorem visible (h : Advances s is s') {r : Reference} (hr : s'.Visible r) :
    s.Visible r ∨ r ∈ writes is := by
  obtain ⟨hn, hi⟩ := hr
  rcases h.current r.name hn with he | hw
  · exact .inl ⟨hn, hi.trans he⟩
  · rw [← hi] at hw
    exact .inr hw

/-- Nothing is given out: versions are read at most, names are taken, domains are declared. -/
theorem idle (howner : s'.owner = s.owner) (hconditions : s'.scope.conditions = s.scope.conditions)
    {xs : List String} (hversions : s.versions.Reads xs s'.versions)
    (hxs : ∀ x ∈ xs, isConditionName x = false)
    (hregistry : s.registry.Before s'.registry) : Advances s [] s' where
  owner := howner
  baseline := hversions.baseline
  conditions _ hx := hconditions ▸ hx
  seen := hversions.seen
  ascending := .nil fun c => by
    cases c with
    | none => simpa [LoweringState.clock, howner] using hregistry.count _
    | some x => exact Int.le_of_eq (hversions.upcoming x).symm
  sole := nofun
  current x _ := .inl (hversions.current x)
  tracked ht := by
    refine ⟨hconditions ▸ ht.named, fun x hx hs => ?_⟩
    have hn : x ∉ xs := fun hm => by simp [hxs x hm] at hx
    rw [hconditions]
    exact ht.latest x hx (hversions.latest x hn ▸ hs)

theorem of_writes_eq (h : Advances s is s') (hw : writes js = writes is) : Advances s js s' where
  owner := h.owner
  baseline := h.baseline
  conditions := h.conditions
  seen := h.seen
  ascending := hw ▸ h.ascending
  sole r hr := h.sole r (hw ▸ hr)
  current x hx := hw ▸ h.current x hx
  tracked := h.tracked

/-- What is left of a loop: the conditions of its body are known from now on. -/
theorem leave (howner : s'.owner = s.owner) (hversions : s'.versions = s.versions)
    (hconditions : ∀ x ∈ s.scope.conditions, x ∈ s'.scope.conditions)
    (hregistry : s.registry.Before s'.registry)
    (hnamed : s.Tracked → ∀ x ∈ s'.scope.conditions, isConditionName x = true) :
    Advances s [] s' where
  owner := howner
  baseline := by rw [hversions]
  conditions := hconditions
  seen _ hx := hversions ▸ hx
  ascending := .nil fun c => by
    cases c with
    | none => simpa [LoweringState.clock, howner] using hregistry.count _
    | some x => simp [LoweringState.clock, hversions]
  sole := nofun
  current _ _ := .inl (by rw [hversions])
  tracked ht := ⟨hnamed ht, fun x hx hs => hconditions x (ht.latest x hx (hversions ▸ hs))⟩

/-- A known condition becomes visible, or an ordinary variable is pinned where it stands. -/
theorem pin {x : String} {n : Int} (hc : isConditionName x = true → x ∈ s.scope.conditions)
    (hn : isConditionName x = false → n = s.versions.current x) :
    Advances s [] (s.withVersions (s.versions.pin x n)) where
  owner := rfl
  baseline := rfl
  conditions _ h := h
  seen y hy := by
    change ((s.versions.latest.insert x n).get? y).isSome = true
    rw [Table.get?_insert]
    split
    · rfl
    · exact hy
  ascending := .nil fun c => by cases c <;> exact Int.le_refl _
  sole := nofun
  current y hy := by
    refine .inl ((Versions.current_pin _ _ _ _).trans ?_)
    split
    · subst y
      exact hn hy
    · rfl
  tracked ht := by
    refine ⟨ht.named, fun y hy hs => ?_⟩
    change ((s.versions.latest.insert x n).get? y).isSome = true at hs
    rw [Table.get?_insert] at hs
    by_cases h : y = x
    · exact h ▸ hc (h ▸ hy)
    · rw [if_neg h] at hs
      exact ht.latest y hy hs

/-- An ordinary variable receives its next version. -/
theorem write {i : Item} {x : String} (hx : isConditionName x = false)
    (hi : i.write = some ⟨x, s.versions.upcoming x⟩) :
    Advances s [i] (s.withVersions (s.versions.write x).2) where
  owner := rfl
  baseline := rfl
  conditions _ h := h
  seen y hy := by
    change ((s.versions.write x).2.latest.get? y).isSome = true
    rw [Versions.get?_latest_write]
    split
    · rfl
    · exact hy
  ascending := by
    have hc : Reference.counter ⟨x, s.versions.upcoming x⟩ = some x :=
      Reference.counter_of_ordinary hx
    have hs : Reference.stamp ⟨x, s.versions.upcoming x⟩ = s.versions.upcoming x :=
      Reference.stamp_of_ordinary hx
    have hle : ∀ c, s.clock c ≤ (s.withVersions (s.versions.write x).2).clock c := by
      rintro (- | y)
      · exact Int.le_refl _
      · change s.versions.upcoming y ≤ (s.versions.write x).2.upcoming y
        rw [Versions.upcoming_write]
        split
        · subst y; omega
        · exact Int.le_refl _
    simp only [writes, List.filterMap_cons, hi, List.filterMap_nil]
    refine .single hle ?_ ?_
    · rw [hc, hs]
      exact Int.le_refl _
    · rw [hc, hs]
      change _ < (s.versions.write x).2.upcoming x
      rw [Versions.upcoming_write, if_pos rfl]
      omega
  sole r hr hc := by
    simp only [writes, List.filterMap_cons, hi, List.filterMap_nil, List.mem_singleton] at hr
    rw [hr, hx] at hc
    cases hc
  current y _ := by
    change (s.versions.write x).2.current y = _ ∨
      (⟨y, (s.versions.write x).2.current y⟩ : Reference) ∈ _
    rw [Versions.current_write]
    by_cases h : y = x
    · subst h
      simp [writes, hi]
    · simp [h]
  tracked ht := by
    refine ⟨ht.named, fun y hy hs => ht.latest y hy ?_⟩
    have hne : y ≠ x := fun h => by simp [h, hx] at hy
    change ((s.versions.write x).2.latest.get? y).isSome = true at hs
    rwa [Versions.get?_latest_write, if_neg hne] at hs

private theorem mem_addCondition {c : Scope} {x y : String} :
    y ∈ (c.addCondition x).conditions ↔ y = x ∨ y ∈ c.conditions := by
  unfold Scope.addCondition
  dsimp only
  split
  · rename_i hx
    have hm : x ∈ c.conditions := by simpa using hx
    exact ⟨.inr, fun h => h.elim (fun he => he ▸ hm) id⟩
  · simp [or_comm]

/-- The next condition of the function becomes visible at its only version. -/
theorem condition {i : Item} {n : Nat} {r : Registry}
    (hn : n = s.registry.count (s.owner ++ "#condition"))
    (hi : i.write = some ⟨conditionName n, 0⟩)
    (hr : (s.registry.take (s.owner ++ "#condition")).2.Before r) :
    Advances s [i] ⟨s.scope.addCondition (conditionName n), r⟩ where
  owner := rfl
  baseline := rfl
  conditions x hx := mem_addCondition.mpr (.inr hx)
  seen x hx := by
    change ((s.versions.latest.insert _ _).get? x).isSome = true
    rw [Table.get?_insert]
    split
    · rfl
    · exact hx
  ascending := by
    have hlt : (n : Int) < r.count (s.owner ++ "#condition") := by
      have h := hr.count (s.owner ++ "#condition")
      rw [Registry.count_take, if_pos rfl] at h
      omega
    have hle : ∀ c, s.clock c ≤ (⟨s.scope.addCondition (conditionName n), r⟩ :
        LoweringState).clock c := by
      rintro (- | y)
      · change (s.registry.count (s.owner ++ "#condition") : Int) ≤ _
        rw [← hn]
        exact Int.le_of_lt hlt
      · exact Int.le_refl _
    simp only [writes, List.filterMap_cons, hi, List.filterMap_nil]
    refine .single hle ?_ ?_
    · rw [Reference.counter_condition, Reference.stamp_condition, hn]
      exact Int.le_refl _
    · rw [Reference.counter_condition, Reference.stamp_condition]
      exact hlt
  sole q hq _ := by
    simp only [writes, List.filterMap_cons, hi, List.filterMap_nil, List.mem_singleton] at hq
    rw [hq]
  current x hx := by
    refine .inl ((Versions.current_pin _ _ _ _).trans (if_neg fun h => ?_))
    rw [h, isConditionName_conditionName] at hx
    cases hx
  tracked ht := by
    refine ⟨fun x hx => ?_, fun x hx hs => mem_addCondition.mpr ?_⟩
    · rcases mem_addCondition.mp hx with rfl | hx
      · exact isConditionName_conditionName n
      · exact ht.named x hx
    · change ((s.versions.latest.insert _ _).get? x).isSome = true at hs
      rw [Table.get?_insert] at hs
      by_cases h : x = conditionName n
      · exact .inl h
      · rw [if_neg h] at hs
        exact .inr (ht.latest x hx hs)

/-- After a branch its versions stay given out, but what was visible before it is visible again. -/
theorem reset (h : Advances s is s') : Advances s is (s'.withLatest s.versions.latest) where
  owner := h.owner
  baseline := h.baseline
  conditions := h.conditions
  seen _ hx := hx
  ascending := h.ascending
  sole := h.sole
  current x _ := by
    refine .inl ?_
    change (s.versions.latest.get? x).getD s'.versions.baseline = _
    rw [h.baseline]
    rfl
  tracked ht := ⟨(h.tracked ht).named, fun x hx hs => h.conditions x (ht.latest x hx hs)⟩

end Advances

/-- A part of a body whose reads are dominated, given that `known` holds from the start. -/
structure Follows (known : Reference → Prop) (s : LoweringState) (items : List Item)
    (s' : LoweringState) : Prop extends Advances s items s' where
  reads : Dominated (fun r => s.Visible r ∨ known r) items

namespace Follows
variable {known : Reference → Prop} {s s' s'' : LoweringState} {is js : List Item}

/-- The second part may also read what is visible before the first one, or written in it. -/
theorem append_of_known {known' : Reference → Prop} (h : Follows known s is s')
    (h' : Follows known' s' js s'')
    (hk : ∀ r, known' r → s.Visible r ∨ known r ∨ r ∈ writes is) :
    Follows known s (is ++ js) s'' where
  toAdvances := h.toAdvances.append h'.toAdvances
  reads := h.reads.append <| h'.reads.mono fun r hr => by
    rcases hr with hr | hr
    · exact (h.visible hr).imp_left .inl
    · exact or_assoc.mpr (hk r hr)

theorem append (h : Follows known s is s') (h' : Follows known s' js s'') :
    Follows known s (is ++ js) s'' :=
  h.append_of_known h' fun _ hr => .inr (.inl hr)

theorem reset (h : Follows known s is s') : Follows known s is (s'.withLatest s.versions.latest) :=
  ⟨h.toAdvances.reset, h.reads⟩

theorem of_advances (h : Advances s [] s') : Follows known s [] s' := ⟨h, trivial⟩

theorem mem_reads (h : Follows known s is s') {i : Item} (hi : i ∈ is) {r : Reference}
    (hr : r ∈ i.reads) : (s.Visible r ∨ known r) ∨ r ∈ writes is := by
  obtain ⟨pre, post, rfl⟩ := List.append_of_mem hi
  rw [writes_append]
  exact (h.reads.split r hr).imp_right (List.mem_append_left _)

end Follows
end ProgramGraph
