import Mathlib.Data.List.Pairwise
import ProgramGraph.Proofs.Plates

/-! Static single assignment: no version has two producers. -/
namespace ProgramGraph

open ProgramGraph.Graph

namespace Graph.Function

/-- The versions that the records of a body compute, in order. -/
def outputs (f : Function) : List Reference := f.body.filterMap Record.output?

/-- The indices at which a body computes a variable, in order. -/
def indicesOf (f : Function) (x : String) : List Int :=
  (f.outputs.filter (·.name = x)).map Reference.index

/-- The record at a position computes a version. -/
def Produces (f : Function) (i : Nat) (r : Reference) : Prop :=
  (f.body[i]?).bind Record.output? = some r

/-- A record shows a variable as its output or among its inputs. -/
def Mentions (f : Function) (x : String) : Prop :=
  ∃ r ∈ f.body, ∃ q, (r.output? = some q ∨ q ∈ r.reads) ∧ q.name = x

theorem Produces.mem_outputs {f : Function} {i : Nat} {r : Reference} (h : f.Produces i r) :
    r ∈ f.outputs := by
  obtain ⟨record, hi, hr⟩ := Option.bind_eq_some_iff.mp h
  exact List.mem_filterMap.mpr ⟨record, List.mem_of_getElem? hi, hr⟩

theorem exists_produces {f : Function} {r : Reference} (h : r ∈ f.outputs) :
    ∃ i, f.Produces i r := by
  obtain ⟨record, hm, hr⟩ := List.mem_filterMap.mp h
  obtain ⟨i, hi⟩ := List.mem_iff_getElem?.mp hm
  exact ⟨i, Option.bind_eq_some_iff.mpr ⟨record, hi, hr⟩⟩

/-- Where no version is computed twice, its producer is at one position. -/
theorem Produces.unique {f : Function} {i j : Nat} {r : Reference} (hd : f.outputs.Nodup)
    (hi : f.Produces i r) (hj : f.Produces j r) : i = j := by
  obtain ⟨a, ha, har⟩ := Option.bind_eq_some_iff.mp hi
  obtain ⟨b, hb, hbr⟩ := Option.bind_eq_some_iff.mp hj
  obtain ⟨hil, rfl⟩ := List.getElem?_eq_some_iff.mp ha
  obtain ⟨hjl, rfl⟩ := List.getElem?_eq_some_iff.mp hb
  have hp := List.pairwise_iff_getElem.mp (List.pairwise_filterMap.mp hd)
  rcases Nat.lt_trichotomy i j with hlt | heq | hlt
  · exact absurd rfl (hp i j hil hjl hlt r har r hbr)
  · exact heq
  · exact absurd rfl (hp j i hjl hil hlt r hbr r har)

end Graph.Function

/-- The conditions among versions. -/
def conditionsIn (rs : List Reference) : List Reference := rs.filter (isConditionName ·.name)

theorem conditionsIn_append (rs qs : List Reference) :
    conditionsIn (rs ++ qs) = conditionsIn rs ++ conditionsIn qs := List.filter_append ..

theorem Ascending.conditions {lo hi : Option String → Int} {rs : List Reference}
    (h : Ascending lo hi rs) :
    Ascending (fun _ => lo none) (fun _ => hi none) (conditionsIn rs) where
  le _ := h.le none
  mem r hr := by
    obtain ⟨hr, hc⟩ := List.mem_filter.mp hr
    have hm := h.mem r hr
    rwa [Reference.counter_of_condition hc] at hm
  pairwise := h.pairwise.filter _

/-- A body and its plates draw their conditions from one counter. -/
theorem Unfolds.conditions_ascending {known : Reference → Prop} {s s' : LoweringState} {L : Layout}
    (h : Unfolds known s L s') :
    Ascending (fun _ => s.clock none) (fun _ => s'.clock none) (conditionsIn L.given) := by
  induction h with
  | nil => exact .nil fun _ => Int.le_refl _
  | simple hmade _ ih =>
    rw [Layout.given, conditionsIn_append]
    exact hmade.ascending.conditions.append ih
  | branch htested _ _ _ hdecisions _ ihT ihE ih =>
    simp only [Layout.given, conditionsIn_append]
    have ht := htested.ascending.conditions
    have hd := hdecisions.ascending.conditions
    exact (((ht.append ihT).append ihE).append hd).append ih
  | @loop known s s₁ s₂ b b' iter index range name inputs B L
      _ hindex _ _ _ henter hleave _ ihB ih =>
    have hbody : Ascending (fun _ => s.clock none) (fun _ => s₁.clock none)
        (conditionsIn B.given ++ []) := by
      rw [henter]
      exact ihB.append (.nil fun _ => hleave)
    have hcons : conditionsIn (index :: L.given) = conditionsIn L.given := by
      simp [conditionsIn, hindex]
    rw [Layout.given, conditionsIn_append, hcons, ← List.append_nil (conditionsIn B.given)]
    exact hbody.append ih
  | definition hmade _ _ _ _ _ ih => exact hmade.ascending.conditions.append ih

namespace Layout.Opens
variable {f : Function} {B : Layout}

/-- The records of a body compute versions in the order in which they are given. -/
theorem outputs_sublist (h : Layout.Opens f B) (hf : f.body = B.records) :
    f.outputs.Sublist (writes B.items) := by
  obtain ⟨s, s', -, -, hu⟩ := h
  unfold Function.outputs
  rw [hf]
  exact hu.outputs_sublist

theorem outputs_nodup (h : Layout.Opens f B) (hf : f.body = B.records) : f.outputs.Nodup := by
  obtain ⟨s, s', -, -, hu⟩ := id h
  exact hu.follows.ascending.nodup.sublist (h.outputs_sublist hf)

theorem indicesOf_ascending (h : Layout.Opens f B) (hf : f.body = B.records) {x : String}
    (hx : isConditionName x = false) :
    (f.indicesOf x).Pairwise (· < ·) ∧ ∀ k ∈ f.indicesOf x, f.baseline < k := by
  obtain ⟨s, s', hs, -, hu⟩ := id h
  have hw := hu.follows.ascending
  have hsub := h.outputs_sublist hf
  unfold Function.indicesOf
  rw [List.pairwise_map, List.forall_mem_map]
  constructor
  · refine (List.Pairwise.and_mem.mp ((hw.pairwise.sublist hsub).filter _)).imp ?_
    rintro a b ⟨ha, hb, hlt⟩
    obtain rfl : a.name = x := by simpa using (List.mem_filter.mp ha).2
    have hbn : b.name = a.name := by simpa using (List.mem_filter.mp hb).2
    have hbx : isConditionName b.name = false := hbn ▸ hx
    rw [Reference.counter_of_ordinary hx, Reference.counter_of_ordinary hbx,
      Reference.stamp_of_ordinary hx, Reference.stamp_of_ordinary hbx] at hlt
    exact hlt (by rw [hbn])
  · intro r hr
    obtain ⟨hm, hn⟩ := List.mem_filter.mp hr
    obtain rfl : r.name = x := by simpa using hn
    have hl := (hw.mem r (hsub.subset hm)).1
    rw [Reference.counter_of_ordinary hx, Reference.stamp_of_ordinary hx] at hl
    have hup : s.clock (some r.name) = f.baseline + 1 := hs.upcoming r.name
    omega

/-- A condition that a record shows is computed by a record of the same body, at version 0. -/
theorem mem_outputs_of_mentions (h : Layout.Opens f B) (hf : f.body = B.records) {x : String}
    (hx : isConditionName x = true) (hm : f.Mentions x) : ⟨x, 0⟩ ∈ f.outputs := by
  obtain ⟨s, s', -, -, hu⟩ := h
  obtain ⟨r, hr, ⟨y, k⟩, hq, rfl⟩ := hm
  rw [hf, ← B.items_record] at hr
  obtain ⟨i, hi, rfl⟩ := List.mem_map.mp hr
  have hw : ⟨y, k⟩ ∈ writes B.items := by
    rcases hq with hq | hq
    · exact List.mem_filterMap.mpr ⟨i, hi, (hu.faithful hi).output _ hq⟩
    · rcases hu.follows.mem_reads hi ((hu.faithful hi).reads _ hq) with (hv | hk) | hw
      · rw [hv.1] at hx
        cases hx
      · cases hk
      · exact hw
  obtain rfl : k = 0 := hu.follows.sole _ hw hx
  obtain ⟨j, hj, hjw⟩ := List.mem_filterMap.mp hw
  unfold Function.outputs
  rw [hf, ← B.items_record, List.filterMap_map]
  refine List.mem_filterMap.mpr ⟨j, hj, ((hu.faithful hj).write _ hjw).resolve_right fun h => ?_⟩
  rw [h.1] at hx
  cases hx

theorem eq_zero_of_mem_outputs (h : Layout.Opens f B) (hf : f.body = B.records) {x : String} {k : Int}
    (hx : isConditionName x = true) (hm : ⟨x, k⟩ ∈ f.outputs) : k = 0 := by
  have hw := (h.outputs_sublist hf).subset hm
  obtain ⟨s, s', -, -, hu⟩ := h
  exact hu.follows.sole _ hw hx

/-- A body and its plates give each condition once. -/
theorem conditions_nodup (h : Layout.Opens f B) :
    (((f, B) :: B.plates).flatMap fun p => conditionsIn (writes p.2.items)).Nodup := by
  obtain ⟨s, s', -, -, hu⟩ := h
  have hp := B.given_perm.filter (isConditionName ·.name)
  have hd := hp.nodup_iff.mp hu.conditions_ascending.nodup
  rw [List.filter_append, List.filter_flatMap] at hd
  exact hd

end Layout.Opens

/-- A condition has one producer among all records of a function and its plates. -/
theorem Module.LaidOut.producer_unique {ms : List Module} {d : Document} {L B : Layout}
    {r : Registry} {f : Function} (hd : Module.LaidOut ms d L r)
    (hopens : ∀ f B, (f, B) ∈ L.bodies → Layout.Opens f B) (hB : (f, B) ∈ L.bodies)
    {g g' : Function} {i j : Nat} {q : Reference} (hq : isConditionName q.name = true)
    (hg : d.Reaches f g) (hg' : d.Reaches f g') (hi : g.Produces i q) (hj : g'.Produces j q) :
    g = g' ∧ i = j := by
  obtain ⟨G, hG⟩ := hd.mem_plates_of_reaches hB hg
  obtain ⟨G', hG'⟩ := hd.mem_plates_of_reaches hB hg'
  have hbody : ∀ {h H}, (h, H) ∈ (f, B) :: B.plates → (h, H) ∈ L.bodies := by
    intro h H hm
    rcases List.mem_cons.mp hm with hm | hm
    · exact hm ▸ hB
    · exact Layout.mem_bodies_of_mem_plates hB hm
  have hmem : ∀ {h H k}, (h, H) ∈ (f, B) :: B.plates → h.Produces k q →
      q ∈ conditionsIn (writes H.items) := by
    intro h H k hm hk
    have hsub := (hopens h H (hbody hm)).outputs_sublist (Layout.body_of_mem_bodies (hbody hm))
    exact List.mem_filter.mpr ⟨hsub.subset hk.mem_outputs, hq⟩
  have hnodup := List.nodup_flatMap.mp (hopens f B hB).conditions_nodup
  have heq : (g, G) = (g', G') := by
    by_contra hne
    have hsymm : Std.Symm (Function.onFun List.Disjoint
        fun p : Function × Layout => conditionsIn (writes p.2.items)) := ⟨fun _ _ h _ hq hp => h hp hq⟩
    exact hnodup.2.forall hG hG' hne (hmem hG hi) (hmem hG' hj)
  obtain ⟨rfl, rfl⟩ := Prod.mk.inj heq
  have hout := (hopens g G (hbody hG)).outputs_nodup (Layout.body_of_mem_bodies (hbody hG))
  exact ⟨rfl, hi.unique hout hj⟩

/-- Every body computes each of its versions once and each variable in ascending order, above the
baseline of its scope. Every condition of a function has one producer among the records of the
function and its plates. -/
structure Graph.Document.SingleAssignment (d : Document) : Prop where
  nodup : ∀ f ∈ d.functions, f.outputs.Nodup
  ascending : ∀ f ∈ d.functions, ∀ x, isConditionName x = false →
    (f.indicesOf x).Pairwise (· < ·) ∧ ∀ k ∈ f.indicesOf x, f.baseline < k
  condition : ∀ f ∈ d.functions, f.isContainer = true →
    ∀ g x, d.Reaches f g → isConditionName x = true → g.Mentions x →
      ∃ p : Function × Nat, (d.Reaches f p.1 ∧ p.1.Produces p.2 ⟨x, 0⟩) ∧
        ∀ q k, d.Reaches f q.1 → q.1.Produces q.2 ⟨x, k⟩ → q = p ∧ k = 0

theorem Outcome.single_assignment {ms : List Module} {name date : String} {lowered : Lowered}
    (h : (Outcome.ofModules ms name date).result = .ok lowered)
    (hl : Stmt.OnlyLoads (Module.definitions ms))
    (hn : Stmt.SparesConditions (Module.definitions ms)) :
    lowered.document.SingleAssignment := by
  obtain ⟨L, r, hd⟩ := Outcome.laidOut_of_ok h
  have hopens : ∀ f B, (f, B) ∈ L.bodies → Layout.Opens f B := fun f B => hd.opens hl hn
  constructor
  case nodup =>
    intro f hf
    rcases hd.body_cases hf with hnil | ⟨B, hB⟩
    · simp [Function.outputs, hnil]
    · exact (hopens f B hB).outputs_nodup (Layout.body_of_mem_bodies hB)
  case ascending =>
    intro f hf x hx
    rcases hd.body_cases hf with hnil | ⟨B, hB⟩
    · simp [Function.indicesOf, Function.outputs, hnil]
    · exact (hopens f B hB).indicesOf_ascending (Layout.body_of_mem_bodies hB) hx
  case condition =>
    intro f hf hc g x hg hx hm
    obtain ⟨B, hB⟩ := hd.exists_body hf hc
    have hbody : ∀ {g}, lowered.document.Reaches f g → ∃ G, (g, G) ∈ L.bodies :=
      fun hg => hd.exists_body_of_reaches hB hg
    obtain ⟨G, hG⟩ := hbody hg
    obtain ⟨i, hi⟩ := Function.exists_produces
      ((hopens g G hG).mem_outputs_of_mentions (Layout.body_of_mem_bodies hG) hx hm)
    refine ⟨(g, i), ⟨hg, hi⟩, fun q k hq hk => ?_⟩
    obtain ⟨Q, hQ⟩ := hbody hq
    obtain rfl := (hopens q.1 Q hQ).eq_zero_of_mem_outputs (Layout.body_of_mem_bodies hQ) hx
      hk.mem_outputs
    obtain ⟨he, hj⟩ := hd.producer_unique hopens hB (q := ⟨x, 0⟩) hx hq hg hk hi
    exact ⟨Prod.ext he hj, rfl⟩

theorem Outcome.single_assignment_sample :
    ∃ lowered, (Outcome.ofModules Module.sample "m" "2020-01-01").result = .ok lowered ∧
      lowered.document.SingleAssignment := by
  obtain ⟨lowered, h⟩ := Outcome.exists_sample
  exact ⟨lowered, h, Outcome.single_assignment h (by decide +kernel) (by decide +kernel)⟩

end ProgramGraph
