import ProgramGraph.Proofs.Follows.Unfolding

/-! Branches are sealed: what a branch gives is read outside of it by the decisions at its end
only. -/
namespace ProgramGraph

open ProgramGraph.Graph

/-- A branch of a conditional: its own items, the decisions at the end of the conditional, and all
other items of the body that it stands in. -/
structure Arm where
  inside : List Item
  decisions : List Item
  outside : List Item

/-- The same branch in a longer body. -/
def Arm.within (before after : List Item) (a : Arm) : Arm :=
  { a with outside := before ++ a.outside ++ after }

namespace Layout

/-- The branches of all conditionals in a body, at any depth. -/
def arms : Layout → List Arm
  | .nil => []
  | .simple _ made rest => rest.arms.map (.within (made.records.map Record.item) [])
  | .branch _ _ tested thenPart _ elsePart _ decisions rest =>
    let before := tested.records.map Record.item
    let merged := decisions.records.map Record.item
    ⟨thenPart.items, merged, before ++ elsePart.items ++ rest.items⟩ ::
      ⟨elsePart.items, merged, before ++ thenPart.items ++ rest.items⟩ ::
      (thenPart.arms.map (.within before (elsePart.items ++ merged ++ rest.items)) ++
        elsePart.arms.map (.within (before ++ thenPart.items) (merged ++ rest.items)) ++
        rest.arms.map (.within (before ++ thenPart.items ++ elsePart.items ++ merged) []))
  | .loop _ index range name inputs _ rest =>
    rest.arms.map (.within [⟨.loop name inputs, range.reads, some index⟩] [])
  | .definition _ _ _ _ rest => rest.arms

/-- No item outside of a branch but the decisions at its end reads what the branch gives. -/
def Isolated (L : Layout) : Prop :=
  ∀ a ∈ L.arms, ∀ i ∈ a.outside, ∀ r ∈ i.reads, r ∉ writes a.inside

end Layout

/-- A version that was not given out between two states of the counters. -/
def Outside (lo hi : Option String → Int) (r : Reference) : Prop :=
  r.stamp < lo r.counter ∨ hi r.counter ≤ r.stamp

/-- Whatever may be read was given out before. -/
def LoweringState.Past (s : LoweringState) (known : Reference → Prop) : Prop :=
  ∀ r, s.Visible r ∨ known r → r.stamp < s.clock r.counter

/-- Nothing is visible of what was given out in a range that has been left. -/
structure LoweringState.Clear (lo hi : Option String → Int) (s : LoweringState) : Prop where
  visible : ∀ r, s.Visible r → Outside lo hi r
  past : ∀ c, hi c ≤ s.clock c

section
variable {known : Reference → Prop} {s s' : LoweringState} {is : List Item}
  {lo hi : Option String → Int}

theorem LoweringState.Past.advance (h : s.Past known) (ha : Advances s is s') : s'.Past known := by
  intro r hr
  rcases hr with hr | hr
  · rcases ha.visible hr with hr | hr
    · exact Int.lt_of_lt_of_le (h r (.inl hr)) (ha.ascending.le _)
    · exact (ha.ascending.mem r hr).2
  · exact Int.lt_of_lt_of_le (h r (.inr hr)) (ha.ascending.le _)

theorem LoweringState.Past.reads (h : s.Past known) (hf : Follows known s is s') :
    ∀ i ∈ is, ∀ r ∈ i.reads, r.stamp < s'.clock r.counter := by
  intro i hi r hr
  rcases hf.mem_reads hi hr with hr | hr
  · exact Int.lt_of_lt_of_le (h r hr) (hf.ascending.le _)
  · exact (hf.ascending.mem r hr).2

theorem LoweringState.Starts.past {b : Int} (h : s.Starts b) : s.Past fun _ => False := by
  rintro r (⟨hn, hi⟩ | hr)
  · rw [Reference.counter_of_ordinary hn, Reference.stamp_of_ordinary hn, hi, h.current]
    have hup : s.clock (some r.name) = b + 1 := h.upcoming r.name
    omega
  · cases hr

namespace LoweringState.Clear

theorem advance (h : s.Clear lo hi) (ha : Advances s is s') : s'.Clear lo hi where
  visible r hr := by
    rcases ha.visible hr with hr | hr
    · exact h.visible r hr
    · exact .inr (Int.le_trans (h.past _) (ha.ascending.mem r hr).1)
  past c := Int.le_trans (h.past c) (ha.ascending.le c)

/-- Behind a branch the versions before it are visible again. -/
theorem reset (hp : s.Past known) (ha : Advances s is s') (hlo : ∀ c, s.clock c ≤ lo c)
    (hhi : ∀ c, hi c ≤ s'.clock c) : (s'.withLatest s.versions.latest).Clear lo hi where
  visible r hr := by
    refine .inl (Int.lt_of_lt_of_le (hp r (.inl ⟨hr.1, ?_⟩)) (hlo _))
    have hi : r.index = (s.versions.latest.get? r.name).getD s'.versions.baseline := hr.2
    rw [ha.baseline] at hi
    exact hi
  past := hhi

theorem reads (h : s.Clear lo hi) (hf : Follows known s is s')
    (hk : ∀ r, known r → Outside lo hi r) : ∀ i ∈ is, ∀ r ∈ i.reads, Outside lo hi r := by
  intro i hi r hr
  rcases hf.mem_reads hi hr with (hr | hr) | hr
  · exact h.visible r hr
  · exact hk r hr
  · exact .inr (Int.le_trans (h.past _) (hf.ascending.mem r hr).1)

end LoweringState.Clear

/-- A branch that gives the versions in a range, none of which are read outside of it. -/
structure Arm.Sealed (lo hi : Option String → Int) (a : Arm) : Prop where
  inside : Ascending lo hi (writes a.inside)
  outside : ∀ i ∈ a.outside, ∀ r ∈ i.reads, Outside lo hi r

theorem Arm.Sealed.within {a : Arm} {before after : List Item} (h : a.Sealed lo hi)
    (hbefore : ∀ i ∈ before, ∀ r ∈ i.reads, Outside lo hi r)
    (hafter : ∀ i ∈ after, ∀ r ∈ i.reads, Outside lo hi r) : (a.within before after).Sealed lo hi where
  inside := h.inside
  outside i hi := by
    rcases List.mem_append.mp hi with hi | hi
    · exact (List.mem_append.mp hi).elim (hbefore i) (h.outside i)
    · exact hafter i hi

theorem Arm.Sealed.isolated {a : Arm} (h : a.Sealed lo hi) :
    ∀ i ∈ a.outside, ∀ r ∈ i.reads, r ∉ writes a.inside := by
  intro i hi r hr hw
  have hm := h.inside.mem r hw
  rcases h.outside i hi r hr with ho | ho
  · exact absurd ho (Int.not_lt.mpr hm.1)
  · exact absurd ho (Int.not_le.mpr hm.2)

end

/-- A part before a body seals the branches of the body against itself. -/
theorem Arm.Sealed.prepend {known : Reference → Prop} {s s₁ : LoweringState} {is : List Item}
    {a : Arm} {lo hi : Option String → Int} (ha : a.Sealed lo hi) (hs : s.Past known)
    (hf : Follows known s is s₁) (hlo : ∀ c, s₁.clock c ≤ lo c) :
    (∀ c, s.clock c ≤ lo c) ∧ (a.within is []).Sealed lo hi := by
  refine ⟨fun c => Int.le_trans (hf.ascending.le c) (hlo c), ha.within (fun i hi r hr => ?_) nofun⟩
  exact .inl (Int.lt_of_lt_of_le (hs.reads hf i hi r hr) (hlo _))

/-- Both branches of a conditional and its decisions, from the state behind the test on. -/
structure Fork (known : Reference → Prop) (condition : Reference) (s₁ s₂ s₃ s₄ : LoweringState)
    (is js ds : List Item) : Prop where
  past : s₁.Past fun r => known r ∨ r = condition
  thenPart : Follows (fun r => known r ∨ r = condition) s₁ is s₂
  elsePart : Follows (fun r => known r ∨ r = condition) (s₂.withLatest s₁.versions.latest) js s₃
  decisions : Follows (Lowering.Candidate condition s₁ s₂ s₃) (s₃.withLatest s₁.versions.latest) ds s₄

namespace Fork
variable {known : Reference → Prop} {condition : Reference} {s₁ s₂ s₃ s₄ : LoweringState}
  {is js ds : List Item} {lo hi : Option String → Int}

theorem advances (h : Fork known condition s₁ s₂ s₃ s₄ is js ds) : Advances s₁ (is ++ js) s₃ :=
  h.thenPart.toAdvances.reset.append h.elsePart.toAdvances

theorem elsePast (h : Fork known condition s₁ s₂ s₃ s₄ is js ds) :
    (s₂.withLatest s₁.versions.latest).Past fun r => known r ∨ r = condition :=
  h.past.advance h.thenPart.toAdvances.reset

theorem outside_of_known (h : Fork known condition s₁ s₂ s₃ s₄ is js ds)
    (hlo : ∀ c, s₁.clock c ≤ lo c) {r : Reference} (hr : s₁.Visible r ∨ known r ∨ r = condition) :
    Outside lo hi r := .inl (Int.lt_of_lt_of_le (h.past r hr) (hlo _))

/-- The branches may be left out of sight once their versions have been given out. -/
theorem leave (h : Fork known condition s₁ s₂ s₃ s₄ is js ds) (hlo : ∀ c, s₁.clock c ≤ lo c)
    (hhi : ∀ c, hi c ≤ s₃.clock c) : s₄.Clear lo hi :=
  (LoweringState.Clear.reset h.past h.advances hlo hhi).advance h.decisions.toAdvances

theorem then_reads (h : Fork known condition s₁ s₂ s₃ s₄ is js ds)
    (hlo : ∀ c, s₂.clock c ≤ lo c) : ∀ i ∈ is, ∀ r ∈ i.reads, Outside lo hi r :=
  fun i hi r hr => .inl (Int.lt_of_lt_of_le (h.past.reads h.thenPart i hi r hr) (hlo _))

/-- The other branch starts where this one started. -/
theorem else_clear (h : Fork known condition s₁ s₂ s₃ s₄ is js ds) (hlo : ∀ c, s₁.clock c ≤ lo c)
    (hhi : ∀ c, hi c ≤ s₂.clock c) :
    (∀ i ∈ js, ∀ r ∈ i.reads, Outside lo hi r) ∧ s₃.Clear lo hi :=
  have hc := LoweringState.Clear.reset h.past h.thenPart.toAdvances hlo hhi
  ⟨hc.reads h.elsePart fun _ hr => h.outside_of_known hlo (.inr hr),
    hc.advance h.elsePart.toAdvances⟩

/-- Decisions read nothing of a branch that is not visible at the end of the branches. -/
theorem decision_reads (h : Fork known condition s₁ s₂ s₃ s₄ is js ds)
    (hlo : ∀ c, s₁.clock c ≤ lo c) (h₂ : ∀ r, s₂.Visible r → Outside lo hi r)
    (h₃ : s₃.Clear lo hi) : ∀ i ∈ ds, ∀ r ∈ i.reads, Outside lo hi r := by
  refine (LoweringState.Clear.reset h.past h.advances hlo h₃.past).reads h.decisions fun r hr => ?_
  rcases hr with hr | hr | hr | hr
  · exact h.outside_of_known hlo (.inr (.inr hr))
  · exact h.outside_of_known hlo (.inl hr)
  · exact h₂ r hr
  · exact h₃.visible r hr

end Fork

private theorem forall_mem_append {lo hi : Option String → Int} {is js : List Item}
    (hi' : ∀ i ∈ is, ∀ r ∈ i.reads, Outside lo hi r)
    (hj : ∀ i ∈ js, ∀ r ∈ i.reads, Outside lo hi r) :
    ∀ i ∈ is ++ js, ∀ r ∈ i.reads, Outside lo hi r := List.forall_mem_append.mpr ⟨hi', hj⟩

/-- Every branch is sealed, and stays so behind its body. -/
theorem Unfolds.arms_sealed {known : Reference → Prop} {s s' : LoweringState} {L : Layout}
    (h : Unfolds known s L s') (hs : s.Past known) {a : Arm} (ha : a ∈ L.arms) :
    ∃ lo hi, ((∀ c, s.clock c ≤ lo c) ∧ a.Sealed lo hi) ∧ s'.Clear lo hi := by
  induction h generalizing a with
  | nil => cases ha
  | simple hmade _ ih =>
    obtain ⟨b, hb, rfl⟩ := List.mem_map.mp ha
    obtain ⟨lo, hi, ⟨hlo, hsealed⟩, hc⟩ := ih (hs.advance hmade.toAdvances) hb
    exact ⟨lo, hi, hsealed.prepend hs hmade hlo, hc⟩
  | @branch known s s₁ s₂ s₃ s₄ s₅ test condition tested T E decisions L
      htested hcondition hthen helse hdecisions hrest ihT ihE ih =>
    have hp₁ : s₁.Past fun r => known r ∨ r = condition := by
      intro r hr
      rcases or_assoc.mpr hr with hr | rfl
      · exact hs.advance htested.toAdvances r hr
      · exact (htested.ascending.mem r (hcondition ▸ List.mem_singleton_self r)).2
    have hfork : Fork known condition s₁ s₂ s₃ s₄ T.items E.items _ :=
      ⟨hp₁, hthen.follows, helse.follows, hdecisions⟩
    have hle₁ : ∀ c, s.clock c ≤ s₁.clock c := htested.ascending.le
    have hle₂ : ∀ c, s₁.clock c ≤ s₂.clock c := hthen.follows.ascending.le
    have hle₃ : ∀ c, s₂.clock c ≤ s₃.clock c := helse.follows.ascending.le
    have htestedReads : ∀ {lo hi : Option String → Int}, (∀ c, s₁.clock c ≤ lo c) →
        ∀ i ∈ tested.records.map Record.item, ∀ r ∈ i.reads, Outside lo hi r :=
      fun hlo i hi r hr => .inl (Int.lt_of_lt_of_le (hs.reads htested i hi r hr) (hlo _))
    have hrestReads : ∀ {lo hi : Option String → Int}, (∀ c, s₁.clock c ≤ lo c) →
        s₄.Clear lo hi → ∀ i ∈ L.items, ∀ r ∈ i.reads, Outside lo hi r :=
      fun hlo hc => hc.reads hrest.follows fun r hr => hfork.outside_of_known hlo (.inr (.inl hr))
    simp only [Layout.arms, List.mem_cons, List.mem_append, List.mem_map] at ha
    rcases ha with rfl | rfl | (⟨b, hb, rfl⟩ | ⟨b, hb, rfl⟩) | ⟨b, hb, rfl⟩
    · -- the branch that is taken
      have hlo : ∀ c, s₁.clock c ≤ s₁.clock c := fun c => Int.le_refl _
      have hc₄ := hfork.leave hlo hle₃
      refine ⟨s₁.clock, s₂.clock, ⟨hle₁, hthen.follows.ascending, ?_⟩,
        hc₄.advance hrest.follows.toAdvances⟩
      exact forall_mem_append (forall_mem_append (htestedReads hlo)
        (hfork.else_clear hlo fun c => Int.le_refl _).1) (hrestReads hlo hc₄)
    · -- the other branch
      have hc₄ := hfork.leave hle₂ fun c => Int.le_refl _
      refine ⟨s₂.clock, s₃.clock, ⟨fun c => Int.le_trans (hle₁ c) (hle₂ c),
        helse.follows.ascending, ?_⟩, hc₄.advance hrest.follows.toAdvances⟩
      exact forall_mem_append (forall_mem_append (htestedReads hle₂)
        (hfork.then_reads fun c => Int.le_refl _)) (hrestReads hle₂ hc₄)
    · -- a branch inside of the branch that is taken
      obtain ⟨lo, hi, ⟨hlo, hsealed⟩, hc₂⟩ := ihT hp₁ hb
      obtain ⟨helseReads, hc₃⟩ := hfork.else_clear hlo hc₂.past
      have hc₄ := hfork.leave hlo hc₃.past
      refine ⟨lo, hi, ⟨fun c => Int.le_trans (hle₁ c) (hlo c),
        hsealed.within (htestedReads hlo) ?_⟩, hc₄.advance hrest.follows.toAdvances⟩
      exact forall_mem_append (forall_mem_append helseReads
        (hfork.decision_reads hlo hc₂.visible hc₃)) (hrestReads hlo hc₄)
    · -- a branch inside of the other branch
      obtain ⟨lo, hi, ⟨hlo, hsealed⟩, hc₃⟩ := ihE hfork.elsePast hb
      have hlo₁ : ∀ c, s₁.clock c ≤ lo c := fun c => Int.le_trans (hle₂ c) (hlo c)
      have hc₄ := hfork.leave hlo₁ hc₃.past
      have hthenVisible : ∀ r, s₂.Visible r → Outside lo hi r := fun r hr =>
        .inl (Int.lt_of_lt_of_le (hp₁.advance hthen.follows.toAdvances r (.inl hr)) (hlo _))
      refine ⟨lo, hi, ⟨fun c => Int.le_trans (hle₁ c) (hlo₁ c),
        hsealed.within (forall_mem_append (htestedReads hlo₁) (hfork.then_reads hlo)) ?_⟩,
        hc₄.advance hrest.follows.toAdvances⟩
      exact forall_mem_append (hfork.decision_reads hlo₁ hthenVisible hc₃) (hrestReads hlo₁ hc₄)
    · -- a branch behind the conditional
      have hwhole := htested.branch hcondition hfork.thenPart hfork.elsePart hdecisions
      obtain ⟨lo, hi, ⟨hlo, hsealed⟩, hc⟩ := ih (hs.advance hwhole.toAdvances) hb
      exact ⟨lo, hi, hsealed.prepend hs hwhole hlo, hc⟩
  | loop hcall _ _ _ _ _ _ _ _ ih =>
    obtain ⟨b, hb, rfl⟩ := List.mem_map.mp ha
    obtain ⟨lo, hi, ⟨hlo, hsealed⟩, hc⟩ := ih (hs.advance hcall.toAdvances) hb
    exact ⟨lo, hi, hsealed.prepend hs hcall hlo, hc⟩
  | definition hmade _ _ _ _ _ ih =>
    obtain ⟨lo, hi, ⟨hlo, hsealed⟩, hc⟩ := ih (hs.advance hmade.toAdvances) ha
    exact ⟨lo, hi, ⟨fun c => Int.le_trans (hmade.ascending.le c) (hlo c), hsealed⟩, hc⟩

/-- No body that starts in a scope of its own lets a version out of a branch. -/
theorem Layout.Opens.isolated {f : Function} {B : Layout} (h : Layout.Opens f B) : B.Isolated := by
  obtain ⟨s, s', hs, -, hu⟩ := h
  intro a ha
  obtain ⟨lo, hi, ⟨-, hsealed⟩, -⟩ := hu.arms_sealed hs.past ha
  exact hsealed.isolated

end ProgramGraph
