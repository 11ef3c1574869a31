import ProgramGraph.Proofs.Follows.Block
import ProgramGraph.Proofs.Program

/-! The plates that belong to a body, and the versions that they give together. -/
namespace ProgramGraph

open ProgramGraph.Graph Lowering

def Graph.Function.isPlate : Function → Bool
  | .loopPlate .. => true
  | _ => false

/-- A function and the plates called from it, directly or from another plate. -/
inductive Graph.Document.Reaches (d : Document) (f : Function) : Function → Prop
  | self : Reaches d f f
  | plate {g p : Function} {inputs : List String} (hreach : Reaches d f g) (hp : p ∈ d.functions)
      (hplate : p.isPlate = true) (hcall : .loop p.name inputs ∈ g.body) : Reaches d f p

namespace Layout

/-- The plates that a body calls, directly or from another plate. -/
def plates : Layout → List (Function × Layout)
  | .nil => []
  | .simple _ _ rest => rest.plates
  | .branch _ _ _ thenPart _ elsePart _ _ rest => thenPart.plates ++ elsePart.plates ++ rest.plates
  | .loop _ index range name inputs body rest =>
    body.plates ++ (.loopPlate name inputs index.name range body.records, body) :: rest.plates
  | .definition _ _ _ _ rest => rest.plates

/-- The versions given in a body and its plates, in the order in which they are given. -/
def given : Layout → List Reference
  | .nil => []
  | .simple _ made rest => writes (made.records.map Record.item) ++ rest.given
  | .branch _ _ tested thenPart _ elsePart _ decisions rest =>
    writes (tested.records.map Record.item) ++ thenPart.given ++ elsePart.given ++
      writes (decisions.records.map Record.item) ++ rest.given
  | .loop _ index _ _ _ body rest => body.given ++ index :: rest.given
  | .definition _ _ _ _ rest => rest.given

theorem isPlate_of_mem_plates {L B : Layout} {f : Function} (h : (f, B) ∈ L.plates) :
    f.isPlate = true := by
  induction L with
  | nil => cases h
  | simple s made rest ih => exact ih h
  | branch test condition tested T v E w decisions rest ihT ihE ih =>
    simp only [plates, List.mem_append] at h
    exact h.elim (·.elim ihT ihE) ih
  | loop iter index range name inputs body rest ihB ih =>
    simp only [plates, List.mem_append, List.mem_cons, Prod.mk.injEq] at h
    rcases h with h | ⟨rfl, -⟩ | h
    · exact ihB h
    · rfl
    · exact ih h
  | definition name input vars body rest _ ih => exact ih h

theorem plates_trans {L B : Layout} {f : Function} {p : Function × Layout} (h : (f, B) ∈ L.plates)
    (hp : p ∈ B.plates) : p ∈ L.plates := by
  induction L with
  | nil => cases h
  | simple s made rest ih => exact ih h
  | branch test condition tested T v E w decisions rest ihT ihE ih =>
    simp only [plates, List.mem_append] at h ⊢
    exact h.imp (·.imp ihT ihE) ih
  | loop iter index range name inputs body rest ihB ih =>
    simp only [plates, List.mem_append, List.mem_cons, Prod.mk.injEq] at h ⊢
    rcases h with h | ⟨-, rfl⟩ | h
    · exact .inl (ihB h)
    · exact .inl hp
    · exact .inr (.inr (ih h))
  | definition name input vars body rest _ ih => exact ih h

/-- The plates of a body stand among the bodies around it. -/
theorem mem_bodies_of_mem_plates {L B : Layout} {f : Function} {p : Function × Layout}
    (h : (f, B) ∈ L.bodies) (hp : p ∈ B.plates) : p ∈ L.bodies := by
  have hown : ∀ {B : Layout}, p ∈ B.plates → p ∈ B.bodies := by
    intro B hp
    induction B with
    | nil => cases hp
    | simple s made rest ih => exact ih hp
    | branch test condition tested T v E w decisions rest ihT ihE ih =>
      simp only [plates, bodies, List.mem_append] at hp ⊢
      exact hp.imp (·.imp ihT ihE) ih
    | loop iter index range name inputs body rest ihB ih =>
      simp only [plates, bodies, List.mem_append, List.mem_cons] at hp ⊢
      exact hp.imp ihB (Or.imp_right ih)
    | definition name input vars body rest _ ih =>
      simp only [bodies, List.mem_append, List.mem_cons]
      exact .inr (.inr (ih hp))
  induction L with
  | nil => cases h
  | simple s made rest ih => exact ih h
  | branch test condition tested T v E w decisions rest ihT ihE ih =>
    simp only [bodies, List.mem_append] at h ⊢
    exact h.imp (·.imp ihT ihE) ih
  | loop iter index range name inputs body rest ihB ih =>
    simp only [bodies, List.mem_append, List.mem_cons, Prod.mk.injEq] at h ⊢
    rcases h with h | ⟨-, rfl⟩ | h
    · exact .inl (ihB h)
    · exact .inl (hown hp)
    · exact .inr (.inr (ih h))
  | definition name input vars body rest ihB ih =>
    simp only [bodies, List.mem_append, List.mem_cons, Prod.mk.injEq] at h ⊢
    rcases h with h | ⟨-, rfl⟩ | h
    · exact .inl (ihB h)
    · exact .inl (hown hp)
    · exact .inr (.inr (ih h))

theorem mem_functions_of_mem_bodies {L B : Layout} {f : Function} (h : (f, B) ∈ L.bodies) :
    f ∈ L.functions := by
  induction L with
  | nil => cases h
  | simple s made rest ih => exact List.mem_append_right _ (ih h)
  | branch test condition tested T v E w decisions rest ihT ihE ih =>
    simp only [bodies, List.mem_append] at h
    rcases h with (h | h) | h
    · exact List.mem_append_left _ (List.mem_append_left _ (List.mem_append_left _
        (List.mem_append_right _ (ihT h))))
    · exact List.mem_append_left _ (List.mem_append_left _ (List.mem_append_right _ (ihE h)))
    · exact List.mem_append_right _ (ih h)
  | loop iter index range name inputs body rest ihB ih =>
    simp only [bodies, List.mem_append, List.mem_cons, Prod.mk.injEq] at h
    rcases h with h | ⟨rfl, -⟩ | h
    · exact List.mem_append_left _ (List.mem_append_left _ (ihB h))
    · exact List.mem_append_left _ (List.mem_append_right _ (List.mem_singleton_self _))
    · exact List.mem_append_right _ (ih h)
  | definition name input vars body rest ihB ih =>
    simp only [bodies, List.mem_append, List.mem_cons, Prod.mk.injEq] at h
    rcases h with h | ⟨rfl, -⟩ | h
    · exact List.mem_append_left _ (List.mem_append_left _ (ihB h))
    · exact List.mem_append_left _ (List.mem_append_right _ (List.mem_singleton_self _))
    · exact List.mem_append_right _ (ih h)

/-- What is given is given by the body itself or by one of its plates. -/
theorem given_perm (L : Layout) :
    L.given.Perm (writes L.items ++ L.plates.flatMap fun p => writes p.2.items) := by
  rw [List.perm_iff_count]
  intro r
  induction L with
  | nil => rfl
  | simple s made rest ih =>
    simp only [given, items, plates, writes_append, List.count_append] at ih ⊢
    omega
  | branch test condition tested T v E w decisions rest ihT ihE ih =>
    simp only [given, items, plates, writes_append, List.flatMap_append, List.count_append]
      at ihT ihE ih ⊢
    omega
  | loop iter index range name inputs body rest ihB ih =>
    have hw : writes (Layout.loop iter index range name inputs body rest).items =
        index :: writes rest.items := rfl
    simp only [given, hw, plates, List.flatMap_append, List.flatMap_cons, List.count_append,
      List.count_cons] at ihB ih ⊢
    omega
  | definition name input vars body rest _ ih => exact ih

end Layout

/-- Every call of a loop calls a plate of the body, refers to its range and gives its index. -/
theorem Lowers.plate_of_item {block : List Stmt} {s s' : LoweringState} {L : Layout}
    (h : Lowers block s L s') {i : Item} {name : String} {inputs : List String} (hi : i ∈ L.items)
    (hr : i.record = .loop name inputs) :
    ∃ index range B, (.loopPlate name inputs index.name range B.records, B) ∈ L.plates ∧
      i.reads = range.reads ∧ i.write = some index := by
  have hvalue : ∀ {r r' : Registry} {f : Fragment}, Makes r f r' →
      i ∉ f.records.map Record.item := by
    intro r r' f hf hm
    obtain ⟨record, hrecord, rfl⟩ := List.mem_map.mp hm
    obtain ⟨_, _, _, rfl⟩ := hf.value_of_mem hrecord
    cases hr
  induction h with
  | nil => cases hi
  | assign hmade _ ih =>
    exact (List.mem_append.mp hi).elim (absurd · (hvalue (assign_makes hmade))) ih
  | annAssign hmade _ ih =>
    exact (List.mem_append.mp hi).elim (absurd · (hvalue (annAssign_makes hmade))) ih
  | effect hmade _ ih =>
    obtain ⟨callee, input, v, rfl, rfl⟩ := effect_eq_call hmade
    rcases List.mem_cons.mp hi with rfl | hi
    · cases hr
    · exact ih hi
  | branch htest _ _ hmerge _ ihT ihE ih =>
    simp only [Layout.plates, List.mem_append]
    simp only [Layout.items, List.mem_append] at hi
    rcases hi with (((hi | hi) | hi) | hi) | hi
    · exact absurd hi (hvalue (condition_makes htest))
    · obtain ⟨index, range, B, hp, hi⟩ := ihT hi
      exact ⟨index, range, B, .inl (.inl hp), hi⟩
    · obtain ⟨index, range, B, hp, hi⟩ := ihE hi
      exact ⟨index, range, B, .inl (.inr hp), hi⟩
    · exact absurd hi (hvalue (mergeVariables_makes hmerge))
    · obtain ⟨index, range, B, hp, hi⟩ := ih hi
      exact ⟨index, range, B, .inr hp, hi⟩
  | loop _ _ _ _ _ _ ih =>
    simp only [Layout.plates, List.mem_append, List.mem_cons]
    rcases List.mem_cons.mp hi with rfl | hi
    · obtain ⟨rfl, rfl⟩ := Record.loop.inj hr
      exact ⟨_, _, _, .inr (.inl rfl), rfl, rfl⟩
    · obtain ⟨index, range, B, hp, hi⟩ := ih hi
      exact ⟨index, range, B, .inr (.inr hp), hi⟩
  | definition _ _ _ _ _ _ _ ih => exact ih hi

/-- Every body in a layout is that of a block. -/
theorem Lowers.exists_of_mem_bodies {block : List Stmt} {s s' : LoweringState} {L B : Layout}
    {f : Function} (h : Lowers block s L s') (hB : (f, B) ∈ L.bodies) :
    ∃ body b b', Lowers body b B b' := by
  induction h with
  | nil => cases hB
  | assign _ _ ih => exact ih hB
  | annAssign _ _ ih => exact ih hB
  | effect _ _ ih => exact ih hB
  | branch _ _ _ _ _ ihT ihE ih =>
    simp only [Layout.bodies, List.mem_append] at hB
    exact hB.elim (·.elim ihT ihE) ih
  | loop _ _ _ hbody _ ihB ih =>
    simp only [Layout.bodies, List.mem_append, List.mem_cons, Prod.mk.injEq] at hB
    rcases hB with hB | ⟨-, rfl⟩ | hB
    · exact ihB hB
    · exact ⟨_, _, _, hbody⟩
    · exact ih hB
  | definition _ _ hbody _ _ _ ihB ih =>
    simp only [Layout.bodies, List.mem_append, List.mem_cons, Prod.mk.injEq] at hB
    rcases hB with hB | ⟨-, rfl⟩ | hB
    · exact ihB hB
    · exact ⟨_, _, _, hbody⟩
    · exact ih hB

/-- A plate of a layout is the only plate of its name in the document. -/
theorem Module.LaidOut.eq_of_mem_plates {ms : List Module} {d : Document} {L G Q : Layout}
    {r : Registry} {g p q : Function} (hd : Module.LaidOut ms d L r) (hG : (g, G) ∈ L.bodies)
    (hq : (q, Q) ∈ G.plates) (hp : p ∈ d.functions) (hplate : p.isPlate = true)
    (hn : q.name = p.name) : q = p := by
  have hcontainer : ∀ {f : Function}, f.isPlate = true → f.isContainer = false := by
    intro f hf
    cases f with
    | loopPlate => rfl
    | _ => cases hf
  have hqf := Layout.mem_functions_of_mem_bodies (Layout.mem_bodies_of_mem_plates hG hq)
  rw [hd.functions] at hp
  exact hd.lowers.named.eq_of_name_eq hqf hp (hcontainer (Layout.isPlate_of_mem_plates hq))
    (hcontainer hplate) hn

/-- What a body reaches in the document is a plate of its layout. -/
theorem Module.LaidOut.mem_plates_of_reaches {ms : List Module} {d : Document} {L B : Layout}
    {r : Registry} {f g : Function} (hd : Module.LaidOut ms d L r) (hB : (f, B) ∈ L.bodies)
    (h : d.Reaches f g) : ∃ G, (g, G) ∈ (f, B) :: B.plates := by
  induction h with
  | self => exact ⟨B, List.mem_cons_self⟩
  | @plate g p inputs _ hp hplate hcall ih =>
    obtain ⟨G, hG⟩ := ih
    have hbody : (g, G) ∈ L.bodies := by
      rcases List.mem_cons.mp hG with hG | hG
      · exact hG ▸ hB
      · exact Layout.mem_bodies_of_mem_plates hB hG
    obtain ⟨block, s, s', hl⟩ := hd.lowers.exists_of_mem_bodies hbody
    rw [Layout.body_of_mem_bodies hbody, ← G.items_record] at hcall
    obtain ⟨i, hi, hr⟩ := List.mem_map.mp hcall
    obtain ⟨index, range, Q, hq, -, -⟩ := hl.plate_of_item hi hr
    have he := hd.eq_of_mem_plates hbody hq hp hplate rfl
    refine ⟨Q, List.mem_cons_of_mem _ (he ▸ ?_)⟩
    rcases List.mem_cons.mp hG with hG | hG
    · obtain ⟨rfl, rfl⟩ := Prod.mk.inj hG
      exact hq
    · exact Layout.plates_trans hG hq

theorem Module.LaidOut.exists_body_of_reaches {ms : List Module} {d : Document} {L B : Layout}
    {r : Registry} {f g : Function} (hd : Module.LaidOut ms d L r) (hB : (f, B) ∈ L.bodies)
    (h : d.Reaches f g) : ∃ G, (g, G) ∈ L.bodies := by
  obtain ⟨G, hG⟩ := hd.mem_plates_of_reaches hB h
  rcases List.mem_cons.mp hG with hG | hG
  · exact ⟨G, hG ▸ hB⟩
  · exact ⟨G, Layout.mem_bodies_of_mem_plates hB hG⟩

end ProgramGraph
