import ProgramGraph.Proofs.Conditions.Accounted
import ProgramGraph.Proofs.Plates

/-! Conditions are fresh, and decisions are complete, in programs that use no name of a condition. -/
namespace ProgramGraph

open ProgramGraph.Graph Lowering LoweringState

/-- A record that computes a condition of a function, in its body or in one of its plates, gives a
version that is no parameter's, that no other record of that body gives and that it does not read. -/
def Graph.Document.FreshConditions (d : Document) : Prop :=
  ∀ name input vars body, .container name input vars body ∈ d.functions →
    ∀ g, d.Reaches (.container name input vars body) g →
      ∀ record output read, .value record output read ∈ g.body →
        name.toList ++ "__condition__".toList <+: record.toList →
        (∃ n, output = ⟨conditionName n, 0⟩) ∧ (∀ p ∈ input, output ≠ ⟨p.name, 0⟩) ∧
          g.outputs.count output = 1 ∧ .ref output ∉ read

/-- Behind the branches of every conditional in a block there is a decision, taken by its condition,
on each variable that one of them writes. -/
def Layout.Merged : List Stmt → Layout → Prop
  | [], .nil => True
  | _ :: block, .simple _ _ rest => rest.Merged block
  | .branch _ body orelse _ :: block, .branch _ condition _ thenPart _ elsePart _ decisions rest =>
    (∀ x ∈ Stmt.writtenIn body ++ Stmt.writtenIn orelse,
      ∃ r ∈ decisions.records, ∃ n, r.Decides condition ⟨x, n⟩) ∧
    thenPart.Merged body ∧ elsePart.Merged orelse ∧ rest.Merged block
  | .loop _ _ body _ _ :: block, .loop _ _ _ _ _ inner rest =>
    inner.Merged body ∧ rest.Merged block
  | .functionDef _ _ body _ :: block, .definition _ _ _ inner rest =>
    inner.Merged body ∧ rest.Merged block
  | _, _ => False

/-- A body in a function, with what its parts account for. -/
def Layout.AccountedIn (owner : String) (B : Layout) : Prop :=
  ∃ block s s', Accounted block s B s' ∧ s.owner = owner

namespace Accounted
variable {block : List Stmt} {s s' : LoweringState} {L B : Layout} {f : Function}

theorem merged (h : Accounted block s L s') : L.Merged block := by
  induction h with
  | nil => trivial
  | simple _ _ ih => exact ih
  | branch _ _ _ _ hcomplete _ ihT ihE ih =>
    refine ⟨fun x hx => ?_, ihT, ihE, ih⟩
    obtain ⟨r, hr, hdecides⟩ := hcomplete x hx
    exact ⟨r, hr, _, hdecides⟩
  | loop _ _ _ _ ihB ih => exact ⟨ihB, ih⟩
  | definition _ _ _ _ _ ihB ih => exact ⟨ihB, ih⟩

theorem owner (h : Accounted block s L s') : s'.owner = s.owner := h.accounts.owner

/-- The plates of a body belong to the function of that body. -/
theorem plates (h : Accounted block s L s') (hB : (f, B) ∈ L.plates) :
    B.AccountedIn s.owner := by
  induction h with
  | nil => cases hB
  | simple hmade _ ih => exact hmade.owner ▸ ih hB
  | branch htested hthen helse hdecisions _ _ ihT ihE ih =>
    have howner := htested.owner
    have hthenOwner := hthen.owner.trans howner
    have helseOwner := helse.owner.trans hthenOwner
    have hdecisionsOwner := hdecisions.owner.trans helseOwner
    simp only [Layout.plates, List.mem_append] at hB
    rcases hB with (hB | hB) | hB
    · exact howner ▸ ihT hB
    · exact hthenOwner ▸ ihE hB
    · exact hdecisionsOwner ▸ ih hB
  | loop hcall howner hbody _ ihB ih =>
    simp only [Layout.plates, List.mem_append, List.mem_cons, Prod.mk.injEq] at hB
    rcases hB with hB | ⟨-, rfl⟩ | hB
    · exact howner ▸ ihB hB
    · exact ⟨_, _, _, hbody, howner⟩
    · exact hcall.owner ▸ ih hB
  | definition hmade _ _ _ _ _ ih => exact hmade.owner ▸ ih hB

/-- The body of a container belongs to it, and none of its parameters is named as a condition. -/
theorem container {name : String} {input vars : List Declaration} {body : List Record}
    (h : Accounted block s L s') (hB : (.container name input vars body, B) ∈ L.bodies) :
    B.AccountedIn name ∧ ∀ p ∈ input, isConditionName p.name = false := by
  induction h with
  | nil => cases hB
  | simple _ _ ih => exact ih hB
  | branch _ _ _ _ _ _ ihT ihE ih =>
    simp only [Layout.bodies, List.mem_append] at hB
    exact hB.elim (·.elim ihT ihE) ih
  | loop _ _ _ _ ihB ih =>
    simp only [Layout.bodies, List.mem_append, List.mem_cons, Prod.mk.injEq] at hB
    rcases hB with hB | ⟨⟨⟩, -⟩ | hB
    · exact ihB hB
    · exact ih hB
  | definition _ hinput howner hbody _ ihB ih =>
    simp only [Layout.bodies, List.mem_append, List.mem_cons, Prod.mk.injEq] at hB
    rcases hB with hB | ⟨he, rfl⟩ | hB
    · exact ihB hB
    · obtain ⟨rfl, rfl, rfl, rfl⟩ := Function.container.inj he
      exact ⟨⟨_, _, _, hbody, howner⟩, hinput⟩
    · exact ih hB

end Accounted

/-- In a body that is accounted for, a record that is named as a test computes a condition that it
does not read and that no other record computes. -/
theorem Layout.AccountedIn.fresh {owner : String} {B : Layout} {g : Function}
    (h : B.AccountedIn owner) (hg : g.body = B.records) {record : String} {output : Reference}
    {read : List Input} (hr : .value record output read ∈ g.body)
    (hname : owner.toList ++ "__condition__".toList <+: record.toList) :
    (∃ n, output = ⟨conditionName n, 0⟩) ∧ g.outputs.count output = 1 ∧ .ref output ∉ read := by
  obtain ⟨block, s, s', haccounted, rfl⟩ := h
  have haccounts := haccounted.accounts
  have hrecord : .value record output read ∈ B.records := hg ▸ hr
  obtain ⟨⟨n, rfl⟩, hread⟩ := haccounts.tests record output read hrecord hname
  have hcondition : isConditionName (conditionName n) = true := isConditionName_conditionName n
  refine ⟨⟨n, rfl⟩, ?_, fun hself => ?_⟩
  · have hout : ⟨conditionName n, 0⟩ ∈ B.records.filterMap Record.output? :=
      List.mem_filterMap.mpr ⟨_, hrecord, rfl⟩
    have hmem : ⟨conditionName n, 0⟩ ∈ conditionsIn (B.records.filterMap Record.output?) :=
      List.mem_filter.mpr ⟨hout, hcondition⟩
    have hone := List.count_eq_one_of_mem haccounts.conditions_nodup hmem
    have hcount : (conditionsIn (B.records.filterMap Record.output?)).count ⟨conditionName n, 0⟩ =
        (B.records.filterMap Record.output?).count ⟨conditionName n, 0⟩ :=
      List.count_filter hcondition
    rw [Function.outputs, hg, ← hcount, hone]
  · have hfree := hread _ hself
    rw [hcondition] at hfree
    cases hfree

/-- A function and the plates that it reaches have bodies that belong to the function. -/
theorem Module.LaidOut.accountedIn_of_reaches {ms : List Module} {d : Document} {L B : Layout}
    {r : Registry} {f g : Function} {owner : String} (hd : Module.LaidOut ms d L r)
    (hB : (f, B) ∈ L.bodies) (hbody : B.AccountedIn owner) (hg : d.Reaches f g) :
    ∃ G : Layout, G.AccountedIn owner ∧ g.body = G.records := by
  obtain ⟨G, hG⟩ := hd.mem_plates_of_reaches hB hg
  rcases List.mem_cons.mp hG with hG | hG
  · obtain ⟨rfl, rfl⟩ := Prod.mk.inj hG
    exact ⟨G, hbody, Layout.body_of_mem_bodies hB⟩
  · obtain ⟨block, s, s', hblock, rfl⟩ := hbody
    have hgbody := Layout.body_of_mem_bodies (Layout.mem_bodies_of_mem_plates hB hG)
    exact ⟨G, hblock.plates hG, hgbody⟩

/-- If no variable is named as a condition, the conditions of a document are fresh, and every
variable that a branch writes is decided on behind it. -/
theorem Outcome.conditions_fresh {ms : List Module} {name date : String} {lowered : Lowered}
    (h : (Outcome.ofModules ms name date).result = .ok lowered)
    (hn : Stmt.SparesConditions (Module.definitions ms)) :
    lowered.document.FreshConditions ∧
      ∃ L r, Module.LaidOut ms lowered.document L r ∧ L.Merged (Module.definitions ms) := by
  obtain ⟨L, r, hd⟩ := Outcome.laidOut_of_ok h
  have htop : (⟨.top, .empty⟩ : LoweringState).Starts 0 := .of_fresh ⟨nofun, nofun⟩ (.nil _)
  have haccounted := hd.lowers.accounted ⟨hn.1, hn.2⟩ htop.regular
  constructor
  · intro name input vars body hf g hg record output read hr hname
    obtain ⟨B, hB⟩ := hd.exists_body hf rfl
    obtain ⟨hbody, hinput⟩ := haccounted.container hB
    obtain ⟨G, hG, hgbody⟩ := hd.accountedIn_of_reaches hB hbody hg
    obtain ⟨⟨n, rfl⟩, hcount, hself⟩ := hG.fresh hgbody hr hname
    refine ⟨⟨n, rfl⟩, fun p hp heq => ?_, hcount, hself⟩
    have hfree := hinput p hp
    rw [← (Reference.mk.inj heq).1, isConditionName_conditionName] at hfree
    cases hfree
  · exact ⟨L, r, hd, haccounted.merged⟩

theorem Outcome.conditions_fresh_sample :
    ∃ lowered, (Outcome.ofModules Module.sample "m" "2020-01-01").result = .ok lowered ∧
      Stmt.SparesConditions (Module.definitions Module.sample) ∧
      lowered.document.FreshConditions ∧ ∃ L r, Module.LaidOut Module.sample lowered.document L r ∧
        L.Merged (Module.definitions Module.sample) := by
  obtain ⟨lowered, h⟩ := Outcome.exists_sample
  have hn : Stmt.SparesConditions (Module.definitions Module.sample) := by decide +kernel
  exact ⟨lowered, h, hn, Outcome.conditions_fresh h hn⟩

/-- A function that is one conditional, if it is merged, has a decision on each variable that a
branch writes. -/
theorem Layout.Merged.exists_decides {name x : String} {parameters : List Parameter} {test : Expr}
    {body orelse : List Stmt} {line line' : Option Int} {s s' : LoweringState} {L : Layout}
    (h : L.Merged [.functionDef name parameters [.branch test body orelse line] line'])
    (hl : Lowers [.functionDef name parameters [.branch test body orelse line] line'] s L s')
    (hx : x ∈ Stmt.writtenIn body ++ Stmt.writtenIn orelse) :
    ∃ input vars records, .container name input vars records ∈ L.functions ∧
      ∃ r ∈ records, ∃ condition n, r.Decides condition ⟨x, n⟩ := by
  cases hl with
  | @definition _ _ _ _ _ _ s₁ s₂ _ _ input vars B L _ _ hbody _ _ _ =>
    cases hbody with
    | @branch _ _ _ _ _ _ _ _ _ _ _ tested condition T E decisions D _ _ _ _ _ =>
      obtain ⟨⟨hdecided, -⟩, -⟩ := h
      obtain ⟨r, hr, n, hdecides⟩ := hdecided x hx
      have hrecord : r ∈ (tested ++ T.fragment ++ E.fragment ++ decisions ++ D.fragment).records :=
        List.mem_append_left _ (List.mem_append_right _ hr)
      refine ⟨input, vars, _, ?_, r, hrecord, condition, n, hdecides⟩
      exact List.mem_append_left _ (List.mem_append_right _ (List.mem_singleton_self _))

/-- The parameter `IF_0` guards an assignment to itself. -/
def Module.guarded : List Module :=
  let one : Expr := .constant ⟨.integer, .number (Binary64.round? 1).get!⟩ none
  [⟨[.functionDef "f" [⟨"IF_0", some (.name "int" .load none), none⟩]
    [.branch (.name "IF_0" .load none) [.assign [.name "IF_0" .store none] one none] [] none]
    none]⟩]

/-- The condition takes the name of the parameter: it reads itself, and there is no decision on what
the branch assigns. -/
theorem Outcome.conditions_clash :
    ∃ lowered, (Outcome.ofModules Module.guarded "m" "2020-01-01").result = .ok lowered ∧
      ¬lowered.document.FreshConditions ∧
      ¬∃ L r, Module.LaidOut Module.guarded lowered.document L r ∧
        L.Merged (Module.definitions Module.guarded) := by
  let body : List Record := [.value "f__condition__IF_0_0" ⟨"IF_0", 0⟩ [.ref ⟨"IF_0", 0⟩],
    .value "f__assign__IF_0_0" ⟨"IF_0", 1⟩ []]
  let declared : List Declaration := [⟨"IF_0", .boolean⟩]
  let container : Function := .container "f" declared declared body
  have hok : (Outcome.ofModules Module.guarded "m" "2020-01-01").result.toOption.any
      (fun l => decide (l.document.functions.filter (·.isContainer) = [container])) = true := by
    decide +kernel
  obtain ⟨lowered, h, hfunctions⟩ := except_exists_ok_of_any hok
  have hcontainers := of_decide_eq_true hfunctions
  refine ⟨lowered, h, fun hfresh => ?_, ?_⟩
  · have hmem : container ∈ lowered.document.functions :=
      (List.mem_filter.mp (hcontainers ▸ List.mem_singleton_self container)).1
    have hname : "f".toList ++ "__condition__".toList <+: "f__condition__IF_0_0".toList := by
      decide +kernel
    have hclash := hfresh "f" _ _ body hmem container .self _ ⟨"IF_0", 0⟩ _ List.mem_cons_self hname
    exact hclash.2.2.2 (List.mem_singleton_self _)
  · rintro ⟨L, r, hd, hmerged⟩
    have hx : "IF_0" ∈ ["IF_0"] := List.mem_singleton_self _
    obtain ⟨input, vars, records, hf, k, hk, condition, n, hdecides⟩ :=
      Layout.Merged.exists_decides hmerged hd.lowers hx
    rw [← hd.functions] at hf
    have hone := List.mem_filter.mpr ⟨hf, (rfl : Function.isContainer (.container ..) = true)⟩
    rw [hcontainers, List.mem_singleton] at hone
    obtain ⟨-, -, -, rfl⟩ := Function.container.inj hone
    obtain ⟨name, first, second, rfl⟩ := hdecides
    simp [body] at hk

end ProgramGraph
