import ProgramGraph.Proofs.Plates
import ProgramGraph.Proofs.Scopes.Blocks

/-! Containers and plates declare the variables that their bodies refer to, each of them once. -/
namespace ProgramGraph

open ProgramGraph.Graph Lowering LoweringState

/-- A body refers to a variable: in a version that a record takes or gives, or as the index or in a
bound of a plate that it calls. -/
inductive Graph.Document.Mentions (d : Document) (f : Function) (x : String) : Prop
  | read {r : Record} {q : Reference} (hr : r ∈ f.body) (hq : q ∈ r.reads) (hx : q.name = x)
  | written {r : Record} {q : Reference} (hr : r ∈ f.body) (hq : r.output? = some q)
      (hx : q.name = x)
  | index {name : String} {inputs inputs' : List String} {range : Range} {body : List Record}
      (hcall : .loop name inputs ∈ f.body)
      (hplate : .loopPlate name inputs' x range body ∈ d.functions)
  | bound {name : String} {inputs inputs' : List String} {index : String} {range : Range}
      {body : List Record} {q : Reference} (hcall : .loop name inputs ∈ f.body)
      (hplate : .loopPlate name inputs' index range body ∈ d.functions) (hq : q ∈ range.reads)
      (hx : q.name = x)

namespace Graph.Function

/-- A container declares its parameters and some variables, a plate takes those other than its
index, and none is repeated. -/
def DeclaresAll (f : Function) (known : String → Prop) : Prop :=
  match f with
  | .container _ input vars _ =>
    (vars.map Declaration.name).Nodup ∧
      ∀ x, x ∈ input.map Declaration.name ∨ known x → x ∈ vars.map Declaration.name
  | .loopPlate _ inputs index _ _ =>
    inputs.Nodup ∧ index ∉ inputs ∧ ∀ x, known x → x ≠ index → x ∈ inputs
  | .assign .. | .decision .. => True

/-- Nothing else is declared. -/
def DeclaresOnly (f : Function) (known : String → Prop) : Prop :=
  match f with
  | .container _ input vars _ =>
    ∀ x ∈ vars.map Declaration.name, x ∈ input.map Declaration.name ∨ known x
  | .loopPlate _ inputs _ _ _ => ∀ x ∈ inputs, known x
  | .assign .. | .decision .. => True

end Graph.Function

theorem Lowering.names_of_declarations {α : Type} {scope : Scope} {line : Option Int} {g : α → String}
    {as : List α} {ds : List Declaration}
    (h : (as.mapM fun a => declaration scope line (g a)) = .ok ds) :
    ds.map Declaration.name = as.map g := by
  induction as generalizing ds with
  | nil =>
    obtain rfl := except_pure_eq_ok.mp h
    rfl
  | cons a as ih =>
    rw [List.mapM_cons] at h
    obtain ⟨first, hfirst, h⟩ := except_bind_eq_ok.mp h
    obtain ⟨others, hothers, h⟩ := except_bind_eq_ok.mp h
    obtain rfl := except_pure_eq_ok.mp h
    have hname : first.name = g a := by
      unfold declaration at hfirst
      split at hfirst
      · obtain rfl := Except.ok.inj hfirst
        rfl
      · cases hfirst
    rw [List.map_cons, List.map_cons, hname, ih hothers]

theorem Versions.not_seen_fresh (b : Int) (x : String) : ¬ (Versions.fresh b).Seen x := by
  simp [Versions.Seen, Versions.fresh]

section
variable {exact : Prop} {block : List Stmt} {s s' : LoweringState} {L : Layout}

/-- The plate of a loop takes what its body has seen. -/
theorem Lowers.plate_declares {index : String} {name : String} {range : Range}
    {records : List Record} (h : Lowers block (s.enterLoop index) L s')
    (hc : exact → Stmt.AllComplete block) :
    let plate := Function.loopPlate name (s'.loopInputs index) index range records
    plate.DeclaresAll (· ∈ mentioned L.items) ∧
      (exact → plate.DeclaresOnly (· ∈ mentioned L.items)) := by
  have hmarks := h.marks hc
  refine ⟨⟨s'.nodup_loopInputs index, ?_, fun x hx hne => ?_⟩, fun he x hx => ?_⟩
  · exact fun hi => (mem_loopInputs.mp hi).2 rfl
  · exact mem_loopInputs.mpr ⟨hmarks.covered x hx, hne⟩
  · exact (hmarks.only he x (mem_loopInputs.mp hx).1).resolve_left (Versions.not_seen_fresh _ _)

/-- A container declares its parameters and what its body has seen. -/
theorem Lowers.container_declares {name : String} {parameters : List Parameter}
    {line : Option Int} {r : Registry} {input vars : List Declaration} {records : List Record}
    (hparameters : parameters.forM (parameter line) (enterFunction name r) = .ok ((), s))
    (h : Lowers block s L s') (hc : exact → Stmt.AllComplete block)
    (hinput : (parameters.mapM fun p => declaration s'.scope line p.name) = .ok input)
    (hvars : s'.versions.latest.keys.mapM (declaration s'.scope line) = .ok vars) :
    let container := Function.container name input vars records
    container.DeclaresAll (· ∈ mentioned L.items) ∧
      (exact → container.DeclaresOnly (· ∈ mentioned L.items)) := by
  have hfirst : (Versions.fresh 0).Marks exact (parameters.map Parameter.name) s.versions :=
    parameters_mark hparameters
  have hall := hfirst.append (h.marks hc)
  have hnames : vars.map Declaration.name = s'.versions.latest.keys := by
    rw [names_of_declarations (g := id) hvars, List.map_id]
  have hparams : input.map Declaration.name = parameters.map Parameter.name :=
    names_of_declarations hinput
  dsimp only [Function.DeclaresAll, Function.DeclaresOnly]
  rw [hnames, hparams]
  refine ⟨⟨s'.versions.latest.nodup_keys, fun x hx => ?_⟩, fun he x hx => ?_⟩
  · exact Versions.mem_keys_iff_seen.mpr (hall.covered x (List.mem_append.mpr hx))
  · have hseen := hall.only he x (Versions.mem_keys_iff_seen.mp hx)
    exact List.mem_append.mp (hseen.resolve_left (Versions.not_seen_fresh _ _))

/-- Every body of a layout belongs to a function that declares what its items name. -/
theorem Lowers.bodies_declare (h : Lowers block s L s')
    (hc : exact → Stmt.AllComplete block) {f : Function} {B : Layout}
    (hB : (f, B) ∈ L.bodies) :
    f.DeclaresAll (· ∈ mentioned B.items) ∧ (exact → f.DeclaresOnly (· ∈ mentioned B.items)) := by
  induction h with
  | nil => cases hB
  | assign _ _ ih => exact ih (fun he => (hc he).cons.2) hB
  | annAssign _ _ ih => exact ih (fun he => (hc he).cons.2) hB
  | effect _ _ ih => exact ih (fun he => (hc he).cons.2) hB
  | branch _ _ _ _ _ ihT ihE ih =>
    simp only [Layout.bodies, List.mem_append] at hB
    rcases hB with (hB | hB) | hB
    · exact ihT (fun he => (hc he).branch.1) hB
    · exact ihE (fun he => (hc he).branch.2.1) hB
    · exact ih (fun he => (hc he).branch.2.2) hB
  | loop _ _ _ hbody _ ihB ih =>
    have hinner : exact → Stmt.AllComplete _ := fun he => (hc he).loop.1
    simp only [Layout.bodies, List.mem_append, List.mem_cons, Prod.mk.injEq] at hB
    rcases hB with hB | ⟨rfl, rfl⟩ | hB
    · exact ihB hinner hB
    · exact hbody.plate_declares hinner
    · exact ih (fun he => (hc he).loop.2) hB
  | definition _ hparameters hbody hinput hvars _ ihB ih =>
    have hinner : exact → Stmt.AllComplete _ := fun he => (hc he).definition.1
    simp only [Layout.bodies, List.mem_append, List.mem_cons, Prod.mk.injEq] at hB
    rcases hB with hB | ⟨rfl, rfl⟩ | hB
    · exact ihB hinner hB
    · exact hbody.container_declares hparameters hinner hinput hvars
    · exact ih (fun he => (hc he).definition.2) hB

end

/-- An item is its record, or the call of a loop. -/
theorem Layout.item_cases {L : Layout} {i : Item} (h : i ∈ L.items) :
    i = i.record.item ∨ ∃ name inputs, i.record = .loop name inputs := by
  have hmade : ∀ {records : List Record}, i ∈ records.map Record.item → i = i.record.item := by
    intro records hi
    obtain ⟨r, -, rfl⟩ := List.mem_map.mp hi
    rfl
  induction L with
  | nil => cases h
  | simple s made rest ih => exact (List.mem_append.mp h).elim (fun h => .inl (hmade h)) ih
  | branch test condition tested T v E w decisions rest ihT ihE ih =>
    simp only [items, List.mem_append] at h
    rcases h with (((h | h) | h) | h) | h
    · exact .inl (hmade h)
    · exact ihT h
    · exact ihE h
    · exact .inl (hmade h)
    · exact ih h
  | loop iter index range name inputs body rest _ ih =>
    rcases List.mem_cons.mp h with rfl | h
    · exact .inr ⟨name, inputs, rfl⟩
    · exact ih h
  | definition name input vars body rest _ ih => exact ih h

/-- A body of the document refers to the variables that its items name. -/
theorem Module.LaidOut.mentions_iff {ms : List Module} {d : Document} {L B : Layout} {r : Registry}
    {f : Function} (hd : Module.LaidOut ms d L r) (hB : (f, B) ∈ L.bodies) (x : String) :
    d.Mentions f x ↔ x ∈ mentioned B.items := by
  obtain ⟨block, s, s', hl⟩ := hd.lowers.exists_of_mem_bodies hB
  have hbody : f.body = B.items.map Item.record := by
    rw [Layout.body_of_mem_bodies hB, B.items_record]
  have hcalled : ∀ {name inputs inputs' index range body},
      .loop name inputs ∈ f.body → .loopPlate name inputs' index range body ∈ d.functions →
      ∃ i ∈ B.items, i.reads = range.reads ∧ ∃ q, i.write = some q ∧ q.name = index := by
    intro name inputs inputs' index range body hcall hplate
    rw [hbody] at hcall
    obtain ⟨i, hi, hr⟩ := List.mem_map.mp hcall
    obtain ⟨q, range', Q, hQ, hreads, hwrite⟩ := hl.plate_of_item hi hr
    obtain ⟨-, -, hindex, hrange, -⟩ :=
      Function.loopPlate.inj (hd.eq_of_mem_plates hB hQ hplate rfl rfl)
    exact ⟨i, hi, hreads.trans (congrArg _ hrange), q, hwrite, hindex⟩
  rw [mem_mentioned]
  constructor
  · intro h
    cases h with
    | @read record q hr hq hx =>
      rw [hbody] at hr
      obtain ⟨i, hi, rfl⟩ := List.mem_map.mp hr
      rcases Layout.item_cases hi with he | ⟨name, inputs, he⟩
      · refine ⟨i, hi, q, .inl ?_, hx⟩
        rw [he]
        exact hq
      · rw [he] at hq
        cases hq
    | @written record q hr hq hx =>
      rw [hbody] at hr
      obtain ⟨i, hi, rfl⟩ := List.mem_map.mp hr
      rcases Layout.item_cases hi with he | ⟨name, inputs, he⟩
      · refine ⟨i, hi, q, .inr ?_, hx⟩
        rw [he]
        exact hq
      · rw [he] at hq
        cases hq
    | index hcall hplate =>
      obtain ⟨i, hi, -, q, hq, hx⟩ := hcalled hcall hplate
      exact ⟨i, hi, q, .inr hq, hx⟩
    | bound hcall hplate hq hx =>
      obtain ⟨i, hi, hreads, -⟩ := hcalled hcall hplate
      exact ⟨i, hi, _, .inl (hreads ▸ hq), hx⟩
  · rintro ⟨i, hi, q, hq, hx⟩
    have hr : i.record ∈ f.body := by
      rw [hbody]
      exact List.mem_map.mpr ⟨i, hi, rfl⟩
    rcases Layout.item_cases hi with he | ⟨name, inputs, he⟩
    · rw [he] at hq
      exact hq.elim (fun hq => .read hr hq hx) fun hq => .written hr hq hx
    · obtain ⟨index, range, Q, hQ, hreads, hwrite⟩ := hl.plate_of_item hi he
      have hplate := Layout.mem_functions_of_mem_bodies (Layout.mem_bodies_of_mem_plates hB hQ)
      rw [← hd.functions] at hplate
      rw [he] at hr
      rcases hq with hq | hq
      · exact .bound hr hplate (hreads ▸ hq) hx
      · rw [hwrite] at hq
        obtain rfl := Option.some.inj hq
        subst hx
        exact .index hr hplate

/-- Every container and every plate declares what its body refers to, and nothing else if the
program is complete. -/
theorem Outcome.scopes_declared {ms : List Module} {name date : String} {lowered : Lowered}
    (h : (Outcome.ofModules ms name date).result = .ok lowered) :
    ∀ f ∈ lowered.document.functions, f.DeclaresAll (lowered.document.Mentions f) ∧
      ((∀ t ∈ Stmt.nestedIn (Module.definitions ms), t.IsComplete) →
        f.DeclaresOnly (lowered.document.Mentions f)) := by
  obtain ⟨L, r, hd⟩ := Outcome.laidOut_of_ok h
  intro f hf
  have hf' := hf
  rw [hd.functions] at hf'
  rcases hd.lowers.mem_functions hf' with ⟨x, hx⟩ | ⟨B, hB⟩
  · cases f with
    | assign => exact ⟨trivial, fun _ => trivial⟩
    | decision => exact ⟨trivial, fun _ => trivial⟩
    | container => cases hx
    | loopPlate => cases hx
  · have hmentions : lowered.document.Mentions f = (· ∈ mentioned B.items) :=
      funext fun x => propext (hd.mentions_iff hB x)
    rw [hmentions]
    exact hd.lowers.bodies_declare (fun hcomplete => hcomplete) hB

theorem Outcome.scopes_declared_sample :
    ∃ lowered, (Outcome.ofModules Module.sample "m" "2020-01-01").result = .ok lowered ∧
      ∀ f ∈ lowered.document.functions, f.DeclaresAll (lowered.document.Mentions f) ∧
        f.DeclaresOnly (lowered.document.Mentions f) := by
  obtain ⟨lowered, h⟩ := Outcome.exists_sample
  have hcomplete : ∀ t ∈ Stmt.nestedIn (Module.definitions Module.sample), t.IsComplete := by
    decide +kernel
  exact ⟨lowered, h, fun f hf =>
    ⟨(Outcome.scopes_declared h f hf).1, (Outcome.scopes_declared h f hf).2 hcomplete⟩⟩

/-- `x` is read by an assignment without a target, and `y` behind `1 < 2` without an operator of its
own. -/
def Module.sampleUntraced : List Module :=
  let name (x : String) (access : Access) : Expr := .name x access none
  let number (n : Int) : Expr := .constant ⟨.integer, .number (Binary64.round? n).get!⟩ none
  let less : Expr := .compare (number 1) [.lt] [number 2, name "y" .load] none
  [⟨[.functionDef "f" [] [.annAssign (name "x" .store) (name "int" .load) none none,
    .annAssign (name "y" .store) (name "bool" .load) none none,
    .assign [] (name "x" .load) none,
    .annAssign (name "z" .store) (name "bool" .load) (some less) none] none]⟩]

/-- Neither read leaves a record, and yet both variables are declared. -/
theorem Outcome.untraced_reads_declared :
    ∃ lowered, (Outcome.ofModules Module.sampleUntraced "m" "2020-01-01").result = .ok lowered ∧
      ∃ f ∈ lowered.document.functions, (∀ x ∈ ["x", "y"], ¬ lowered.document.Mentions f x) ∧
        ¬ f.DeclaresOnly (lowered.document.Mentions f) := by
  let f : Function := .container "f" [] [⟨"x", .integer⟩, ⟨"y", .boolean⟩, ⟨"z", .boolean⟩]
    [.value "f__assign__z_0" ⟨"z", 1⟩ []]
  have hok : (Outcome.ofModules Module.sampleUntraced "m" "2020-01-01").result.toOption.any
      (fun lowered => lowered.document.functions.contains f) = true := by decide +kernel
  obtain ⟨lowered, h, hf⟩ := except_exists_ok_of_any hok
  have hnone : ∀ x ∈ ["x", "y"], ¬ lowered.document.Mentions f x := by
    intro x hx hmentions
    cases hmentions with
    | read hr hq hname =>
      obtain rfl := List.mem_singleton.mp hr
      cases hq
    | written hr hq hname =>
      obtain rfl := List.mem_singleton.mp hr
      obtain rfl := Option.some.inj hq
      subst hname
      revert hx
      decide
    | index hcall hplate => cases List.mem_singleton.mp hcall
    | bound hcall hplate hq hname => cases List.mem_singleton.mp hcall
  refine ⟨lowered, h, f, by simpa using hf, hnone, fun honly => ?_⟩
  exact hnone "x" (by decide) ((honly "x" (by decide)).resolve_left List.not_mem_nil)

end ProgramGraph
