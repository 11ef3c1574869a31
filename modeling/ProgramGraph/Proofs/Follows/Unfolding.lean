import ProgramGraph.Proofs.Follows.Branch
import ProgramGraph.Proofs.Made

/-! How the parts of a layout follow one another. Each body in it starts in a scope of its own. -/
namespace ProgramGraph

open ProgramGraph.Graph

/-- The version that a variable has at the start of a body. -/
def Graph.Function.baseline : Function → Int
  | .loopPlate .. => -1
  | _ => 0

/-- Loop plates and containers, each with the layout of its body. -/
def Layout.bodies : Layout → List (Function × Layout)
  | .nil => []
  | .simple _ _ rest => rest.bodies
  | .branch _ _ _ thenPart _ elsePart _ _ rest => thenPart.bodies ++ elsePart.bodies ++ rest.bodies
  | .loop _ index range name inputs body rest =>
    body.bodies ++ (.loopPlate name inputs index.name range body.records, body) :: rest.bodies
  | .definition name input vars body rest =>
    body.bodies ++ (.container name input vars body.records, body) :: rest.bodies

theorem Layout.body_of_mem_bodies {L B : Layout} {f : Function} (h : (f, B) ∈ L.bodies) :
    f.body = B.records := by
  induction L with
  | nil => cases h
  | simple s made rest ih => exact ih h
  | branch test condition tested T v E w decisions rest ihT ihE ih =>
    rcases List.mem_append.mp h with h | h
    · exact (List.mem_append.mp h).elim ihT ihE
    · exact ih h
  | loop iter index range name inputs body rest ihB ih =>
    rcases List.mem_append.mp h with h | h
    · exact ihB h
    · rcases List.mem_cons.mp h with h | h
      · obtain ⟨rfl, rfl⟩ := Prod.mk.inj h
        rfl
      · exact ih h
  | definition name input vars body rest ihB ih =>
    rcases List.mem_append.mp h with h | h
    · exact ihB h
    · rcases List.mem_cons.mp h with h | h
      · obtain ⟨rfl, rfl⟩ := Prod.mk.inj h
        rfl
      · exact ih h

/-- A scope in which nothing was written yet. -/
structure LoweringState.Starts (s : LoweringState) (b : Int) : Prop where
  tracked : s.Tracked
  baseline : s.versions.baseline = b
  current : ∀ x, s.versions.current x = b
  upcoming : ∀ x, s.versions.upcoming x = b + 1

theorem LoweringState.Starts.of_fresh {s : LoweringState} {b : Int} (ht : s.Tracked) {xs : List String}
    (h : (Versions.fresh b).Reads xs s.versions) : s.Starts b where
  tracked := ht
  baseline := h.baseline
  current := h.current
  upcoming := h.toSame.upcoming

/-- The parts of a layout between two states. The parts behind a test may refer to its condition;
nothing that is known outside of a body is known in it. -/
inductive Unfolds : (Reference → Prop) → LoweringState → Layout → LoweringState → Prop
  | nil {known s} : Unfolds known s .nil s
  | simple {known s s₁ s₂ t made L}
      (hmade : Follows known s (made.records.map Record.item) s₁)
      (hrest : Unfolds known s₁ L s₂) :
      Unfolds known s (.simple t made L) s₂
  | branch {known s s₁ s₂ s₃ s₄ s₅ test condition tested T E decisions L}
      (htested : Follows known s (tested.records.map Record.item) s₁)
      (hcondition : writes (tested.records.map Record.item) = [condition])
      (hthen : Unfolds (fun r => known r ∨ r = condition) s₁ T s₂)
      (helse : Unfolds (fun r => known r ∨ r = condition) (s₂.withLatest s₁.versions.latest) E s₃)
      (hdecisions : Follows (Lowering.Candidate condition s₁ s₂ s₃)
        (s₃.withLatest s₁.versions.latest) (decisions.records.map Record.item) s₄)
      (hrest : Unfolds known s₄ L s₅) :
      Unfolds known s (.branch test condition tested T s₂.versions E s₃.versions decisions L) s₅
  | loop {known s s₁ s₂ b b' iter index range name inputs B L}
      (hcall : Follows known s [⟨.loop name inputs, range.reads, some index⟩] s₁)
      (hindex : isConditionName index.name = false) (hstart : b.Starts (-1))
      (hlowers : ∃ block, Lowers block b B b') (hbody : Unfolds (fun _ => False) b B b')
      (henter : s.clock none = b.clock none) (hleave : b'.clock none ≤ s₁.clock none)
      (hrest : Unfolds known s₁ L s₂) :
      Unfolds known s (.loop iter index range name inputs B L) s₂
  | definition {known s s₁ s₂ b b' name input vars B L}
      (hmade : Follows known s [] s₁)
      (hstart : b.Starts 0) (hlowers : ∃ block, Lowers block b B b')
      (hbody : Unfolds (fun _ => False) b B b')
      (hrest : Unfolds known s₁ L s₂) :
      Unfolds known s (.definition name input vars B L) s₂

/-- The test, both branches and the decisions follow together. -/
theorem Follows.branch {known : Reference → Prop} {condition : Reference}
    {s s₁ s₂ s₃ s₄ : LoweringState} {tested is js decisions : List Item}
    (htested : Follows known s tested s₁) (hcondition : writes tested = [condition])
    (hthen : Follows (fun r => known r ∨ r = condition) s₁ is s₂)
    (helse : Follows (fun r => known r ∨ r = condition) (s₂.withLatest s₁.versions.latest) js s₃)
    (hdecisions : Follows (Lowering.Candidate condition s₁ s₂ s₃)
      (s₃.withLatest s₁.versions.latest) decisions s₄) :
    Follows known s (tested ++ is ++ js ++ decisions) s₄ := by
  have hboth := hthen.reset.append helse
  have hbranch := hboth.reset.append_of_known hdecisions fun r hr => by
    rcases hr with hr | hr | hr | hr
    · exact .inr (.inl (.inr hr))
    · exact .inl hr
    · rw [writes_append, List.mem_append]
      exact (hthen.visible hr).imp_right fun h => .inr (.inl h)
    · exact (hboth.visible hr).imp_right .inr
  have hwhole := htested.append_of_known hbranch fun r hr => .inr <|
    hr.imp_right fun he => by rw [hcondition, he]; exact List.mem_singleton_self _
  simpa only [List.append_assoc] using hwhole

/-- The items of a layout follow as a whole. -/
theorem Unfolds.follows {known : Reference → Prop} {s s' : LoweringState} {L : Layout}
    (h : Unfolds known s L s') : Follows known s L.items s' := by
  induction h with
  | nil => exact .of_advances (.idle rfl rfl (.nil _) nofun (.refl _))
  | simple hmade _ ih => exact hmade.append ih
  | branch htested hcondition _ _ hdecisions _ ihT ihE ih =>
    exact (htested.branch hcondition ihT ihE hdecisions).append ih
  | loop hcall _ _ _ _ _ _ _ _ ih => exact hcall.append ih
  | definition hmade _ _ _ _ _ ih => exact hmade.append ih

/-- An item shows its record: only the index of a loop, an ordinary variable, is given without a
record that computes it. -/
structure Item.Faithful (i : Item) : Prop where
  output : ∀ r, i.record.output? = some r → i.write = some r
  reads : ∀ r ∈ i.record.reads, r ∈ i.reads
  write : ∀ r, i.write = some r → i.record.output? = some r ∨
    isConditionName r.name = false ∧ ∃ name inputs, i.record = .loop name inputs

theorem Item.faithful_of_mem {records : List Record} {i : Item}
    (h : i ∈ records.map Record.item) : i.Faithful := by
  obtain ⟨r, -, rfl⟩ := List.mem_map.mp h
  exact ⟨fun _ h => h, fun _ h => h, fun _ h => .inl h⟩

theorem Unfolds.faithful {known : Reference → Prop} {s s' : LoweringState} {L : Layout}
    (h : Unfolds known s L s') {i : Item} (hi : i ∈ L.items) : i.Faithful := by
  induction h with
  | nil => cases hi
  | simple _ _ ih => exact (List.mem_append.mp hi).elim Item.faithful_of_mem ih
  | branch _ _ _ _ _ _ ihT ihE ih =>
    simp only [Layout.items, List.mem_append] at hi
    rcases hi with (((hi | hi) | hi) | hi) | hi
    · exact Item.faithful_of_mem hi
    · exact ihT hi
    · exact ihE hi
    · exact Item.faithful_of_mem hi
    · exact ih hi
  | loop _ hindex _ _ _ _ _ _ _ ih =>
    rcases List.mem_cons.mp hi with rfl | hi
    · refine ⟨fun r hr => ?_, fun r hr => ?_, fun r hr => .inr ⟨?_, _, _, rfl⟩⟩
      · cases hr
      · cases hr
      · obtain rfl := Option.some.inj hr
        exact hindex
    · exact ih hi
  | definition _ _ _ _ _ _ ih => exact ih hi

private theorem filterMap_sublist {α β : Type} {f g : α → Option β} {l : List α}
    (h : ∀ a ∈ l, ∀ b, f a = some b → g a = some b) :
    (l.filterMap f).Sublist (l.filterMap g) := by
  induction l with
  | nil => exact .slnil
  | cons a l ih =>
    rw [List.forall_mem_cons] at h
    rw [List.filterMap_cons, List.filterMap_cons]
    cases hf : f a with
    | some b =>
      rw [h.1 b hf]
      exact (ih h.2).cons_cons b
    | none =>
      cases g a with
      | none => exact ih h.2
      | some b => exact (ih h.2).cons b

/-- The records of a layout compute versions in the order in which they are given. -/
theorem Unfolds.outputs_sublist {known : Reference → Prop} {s s' : LoweringState} {L : Layout}
    (h : Unfolds known s L s') : (L.records.filterMap Record.output?).Sublist (writes L.items) := by
  rw [← L.items_record, List.filterMap_map]
  exact filterMap_sublist fun i hi => (h.faithful hi).output

/-- The body of a function, laid out in a scope of its own. -/
def Layout.Opens (f : Function) (B : Layout) : Prop :=
  ∃ s s', s.Starts f.baseline ∧ (∃ block, Lowers block s B s') ∧ Unfolds (fun _ => False) s B s'

theorem Unfolds.opens {known : Reference → Prop} {s s' : LoweringState} {L B : Layout}
    {f : Function} (h : Unfolds known s L s') (hf : (f, B) ∈ L.bodies) : Layout.Opens f B := by
  induction h with
  | nil => cases hf
  | simple _ _ ih => exact ih hf
  | branch _ _ _ _ _ _ ihT ihE ih =>
    rcases List.mem_append.mp hf with hf | hf
    · exact (List.mem_append.mp hf).elim ihT ihE
    · exact ih hf
  | loop _ _ hstart hlowers hbody _ _ _ ihB ih =>
    rcases List.mem_append.mp hf with hf | hf
    · exact ihB hf
    · rcases List.mem_cons.mp hf with hf | hf
      · obtain ⟨rfl, rfl⟩ := Prod.mk.inj hf
        exact ⟨_, _, hstart, hlowers, hbody⟩
      · exact ih hf
  | definition _ hstart hlowers hbody _ ihB ih =>
    rcases List.mem_append.mp hf with hf | hf
    · exact ihB hf
    · rcases List.mem_cons.mp hf with hf | hf
      · obtain ⟨rfl, rfl⟩ := Prod.mk.inj hf
        exact ⟨_, _, hstart, hlowers, hbody⟩
      · exact ih hf

end ProgramGraph
