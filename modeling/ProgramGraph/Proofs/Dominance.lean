import ProgramGraph.Proofs.Isolation
import ProgramGraph.Proofs.Plates

/-! Every use is dominated by a definition. -/
namespace ProgramGraph

open ProgramGraph.Graph

namespace Graph.Document

/-- The versions that a record refers to: its inputs, and the range of the plate that it calls. -/
inductive Refers (d : Document) (r : Record) (q : Reference) : Prop
  | input (hq : q ∈ r.reads)
  | range {name index : String} {inputs input : List String} {range : Range} {body : List Record}
      (hr : r = .loop name inputs)
      (hplate : .loopPlate name input index range body ∈ d.functions) (hq : q ∈ range.reads)

/-- What gives a version in a body: nothing has to, if it is the one at the start; else an earlier
record computes it, or an earlier record calls a plate with this index variable. -/
inductive Supplied (d : Document) (f : Function) (earlier : List Record) (q : Reference) : Prop
  | baseline (hq : q.index = f.baseline)
  | output {r : Record} (hr : r ∈ earlier) (hq : r.output? = some q)
  | index {name : String} {inputs input : List String} {range : Range} {body : List Record}
      (hr : .loop name inputs ∈ earlier)
      (hplate : .loopPlate name input q.name range body ∈ d.functions)

/-- Every version that a record refers to is supplied before it. -/
def Dominated (d : Document) : Prop :=
  ∀ f ∈ d.functions, ∀ earlier r later, f.body = earlier ++ r :: later →
    ∀ q, d.Refers r q → d.Supplied f earlier q

end Graph.Document

namespace Module.LaidOut
variable {ms : List Module} {d : Document} {L B : Layout} {r : Registry} {f : Function}

theorem plate_mem (hd : Module.LaidOut ms d L r) (hB : (f, B) ∈ L.bodies) {p : Function × Layout}
    (hp : p ∈ B.plates) : p.1 ∈ d.functions := by
  rw [hd.functions]
  exact Layout.mem_functions_of_mem_bodies (Layout.mem_bodies_of_mem_plates hB hp)

/-- What a record refers to is what its item reads. -/
theorem mem_reads_of_refers (hd : Module.LaidOut ms d L r) (hB : (f, B) ∈ L.bodies)
    (hopens : Layout.Opens f B) {i : Item} (hi : i ∈ B.items) {q : Reference}
    (h : d.Refers i.record q) : q ∈ i.reads := by
  obtain ⟨s, s', -, ⟨block, hl⟩, hu⟩ := hopens
  cases h with
  | input hq => exact (hu.faithful hi).reads q hq
  | range hr hplate hq =>
    obtain ⟨index, range, P, hP, hreads, -⟩ := hl.plate_of_item hi hr
    have he := hd.eq_of_mem_plates hB hP hplate rfl rfl
    obtain ⟨-, -, -, rfl, -⟩ := Function.loopPlate.inj he
    rw [hreads]
    exact hq

/-- What an item gives is supplied to all records behind it. -/
theorem supplied_of_write (hd : Module.LaidOut ms d L r) (hB : (f, B) ∈ L.bodies)
    (hopens : Layout.Opens f B) {is : List Item} (his : ∀ i ∈ is, i ∈ B.items) {q : Reference}
    (h : q ∈ writes is) : d.Supplied f (is.map Item.record) q := by
  obtain ⟨s, s', -, ⟨block, hl⟩, hu⟩ := hopens
  obtain ⟨i, hi, hw⟩ := List.mem_filterMap.mp h
  rcases (hu.faithful (his i hi)).write q hw with ho | ⟨-, name, inputs, hr⟩
  · exact .output (List.mem_map_of_mem hi) ho
  · obtain ⟨index, range, P, hP, -, hindex⟩ := hl.plate_of_item (his i hi) hr
    rw [hw] at hindex
    obtain rfl := Option.some.inj hindex
    have hmem : Record.loop name inputs ∈ is.map Item.record := hr ▸ List.mem_map_of_mem hi
    exact .index hmem (hd.plate_mem hB hP)

/-- A body that starts in a scope of its own is dominated. -/
theorem supplied_of_refers (hd : Module.LaidOut ms d L r) (hB : (f, B) ∈ L.bodies)
    (hopens : Layout.Opens f B) {earlier later : List Record} {record : Record}
    (hbody : f.body = earlier ++ record :: later) {q : Reference} (hq : d.Refers record q) :
    d.Supplied f earlier q := by
  rw [Layout.body_of_mem_bodies hB, ← B.items_record] at hbody
  obtain ⟨pre, rest, hitems, rfl, hrest⟩ := List.map_eq_append_iff.mp hbody
  obtain ⟨i, post, rfl, rfl, -⟩ := List.map_eq_cons_iff.mp hrest
  have hreads := hd.mem_reads_of_refers hB hopens (by rw [hitems]; simp) hq
  obtain ⟨s, s', hs, -, hu⟩ := id hopens
  have hdom := hu.follows.reads
  rw [hitems] at hdom
  rcases hdom.split q hreads with (hv | hk) | hw
  · exact .baseline (hv.2.trans (hs.current q.name))
  · cases hk
  · exact hd.supplied_of_write hB hopens (fun j hj => by rw [hitems]; simp [hj]) hw

end Module.LaidOut

/-- The document of a program is dominated, and the layout that it shows has no branch with a
version that is read outside of it but for the decisions at its end. -/
theorem Outcome.uses_dominated {ms : List Module} {name date : String} {lowered : Lowered}
    (h : (Outcome.ofModules ms name date).result = .ok lowered)
    (hl : Stmt.OnlyLoads (Module.definitions ms))
    (hn : Stmt.SparesConditions (Module.definitions ms)) :
    lowered.document.Dominated ∧
      ∃ L r, Module.LaidOut ms lowered.document L r ∧ ∀ b ∈ L.bodies, b.2.Isolated := by
  obtain ⟨L, r, hd⟩ := Outcome.laidOut_of_ok h
  constructor
  · intro f hf earlier record later hbody q hq
    rcases hd.body_cases hf with hnil | ⟨B, hB⟩
    · rw [hnil] at hbody
      exact absurd hbody (by simp)
    · exact hd.supplied_of_refers hB (hd.opens hl hn hB) hbody hq
  · exact ⟨L, r, hd, fun b hb => (hd.opens hl hn (f := b.1) hb).isolated⟩

theorem Outcome.uses_dominated_sample :
    ∃ lowered, (Outcome.ofModules Module.sample "m" "2020-01-01").result = .ok lowered ∧
      lowered.document.Dominated ∧
      ∃ L r, Module.LaidOut Module.sample lowered.document L r ∧ ∀ b ∈ L.bodies, b.2.Isolated := by
  obtain ⟨lowered, h⟩ := Outcome.exists_sample
  exact ⟨lowered, h, Outcome.uses_dominated h (by decide +kernel) (by decide +kernel)⟩

end ProgramGraph
