import ProgramGraph.Proofs.Follows.Loop
import ProgramGraph.Proofs.Follows.Unfolding

/-! Every block that is lowered unfolds. -/
namespace ProgramGraph

open ProgramGraph.Graph Lowering LoweringState

/-- A block whose uses have a property, and in which no variable is defined under the name of a
condition. -/
structure Stmt.Respects (P : String × Access → Prop) (block : List Stmt) : Prop where
  uses : ∀ u ∈ Stmt.usesOf block, P u
  defined : ∀ x ∈ Stmt.definedIn block, isConditionName x = false

namespace Stmt.Respects
variable {P : String × Access → Prop} {t : Stmt} {rest : List Stmt}

theorem cons (h : Respects P (t :: rest)) : ((∀ u ∈ t.uses, P u) ∧
    ∀ x ∈ t.defined, isConditionName x = false) ∧ Respects P rest := by
  obtain ⟨hu, hd⟩ := h
  rw [Stmt.usesOf, List.forall_mem_append] at hu
  rw [Stmt.definedIn, List.forall_mem_append] at hd
  exact ⟨⟨hu.1, hd.1⟩, hu.2, hd.2⟩

theorem branch {test : Expr} {body orelse : List Stmt} {line : Option Int}
    (h : Respects P (.branch test body orelse line :: rest)) :
    (∀ u ∈ test.uses, P u) ∧ Respects P body ∧ Respects P orelse ∧ Respects P rest := by
  obtain ⟨⟨hu, hd⟩, hrest⟩ := h.cons
  rw [Stmt.uses, List.forall_mem_append, List.forall_mem_append] at hu
  rw [Stmt.defined, List.forall_mem_append] at hd
  exact ⟨hu.1.1, ⟨hu.1.2, hd.1⟩, ⟨hu.2, hd.2⟩, hrest⟩

theorem loop {target iter : Expr} {body orelse : List Stmt} {line : Option Int}
    (h : Respects P (.loop target iter body orelse line :: rest)) :
    (∀ u ∈ iter.uses, P u) ∧ (∀ x ∈ target.targetName?.toList, isConditionName x = false) ∧
      Respects P body ∧ Respects P rest := by
  obtain ⟨⟨hu, hd⟩, hrest⟩ := h.cons
  rw [Stmt.uses, List.forall_mem_append] at hu
  rw [Stmt.defined, List.forall_mem_append] at hd
  exact ⟨hu.1, hd.1, ⟨hu.2, hd.2⟩, hrest⟩

theorem definition {name : String} {parameters : List Parameter} {body : List Stmt}
    {line : Option Int} (h : Respects P (.functionDef name parameters body line :: rest)) :
    (∀ p ∈ parameters, isConditionName p.name = false) ∧ Respects P body ∧ Respects P rest := by
  obtain ⟨⟨hu, hd⟩, hrest⟩ := h.cons
  rw [Stmt.uses] at hu
  rw [Stmt.defined, List.forall_mem_append, List.forall_mem_map] at hd
  exact ⟨hd.1, ⟨hu, hd.2⟩, hrest⟩

end Stmt.Respects

/-- A block in which names are read in value position and no variable is named as a condition. -/
abbrev Stmt.PlainBlock (block : List Stmt) : Prop :=
  Stmt.Respects (fun u => u.2 = .load ∧ isConditionName u.1 = false) block

theorem Stmt.PlainBlock.of_loads {block : List Stmt} (hl : Stmt.OnlyLoads block)
    (hn : Stmt.SparesConditions block) : Stmt.PlainBlock block :=
  ⟨fun u hu => ⟨hl u hu, hn.1 u hu⟩, hn.2⟩

theorem LoweringState.enterFunction_tracked (name : String) (r : Registry) :
    (enterFunction name r).Tracked := ⟨nofun, nofun⟩

/-- A block unfolds from the state before it to the state after it. -/
theorem Lowers.unfolds {block : List Stmt} {s s' : LoweringState} {L : Layout}
    (h : Lowers block s L s') (hp : Stmt.PlainBlock block) (ht : s.Tracked)
    (known : Reference → Prop) : Unfolds known s L s' := by
  induction h generalizing known with
  | nil => exact .nil
  | assign hmade _ ih =>
    obtain ⟨⟨hu, hd⟩, hrest⟩ := hp.cons
    have hfirst : Follows known _ _ _ := assign_follows hmade hu hd
    exact .simple hfirst (ih hrest (hfirst.tracked ht) known)
  | annAssign hmade _ ih =>
    obtain ⟨⟨hu, hd⟩, hrest⟩ := hp.cons
    have hfirst : Follows known _ _ _ := annAssign_follows hmade hu hd
    exact .simple hfirst (ih hrest (hfirst.tracked ht) known)
  | effect hmade _ ih =>
    obtain ⟨⟨hu, -⟩, hrest⟩ := hp.cons
    have hfirst : Follows known _ _ _ := effect_follows hmade hu
    exact .simple hfirst (ih hrest (hfirst.tracked ht) known)
  | @branch test body orelse line rest s s₁ s₂ s₃ s₄ s₅ tested condition T E decisions L
      htest hthen helse hmerge hrest ihT ihE ih =>
    obtain ⟨hu, hbody, horelse, hr⟩ := hp.branch
    obtain ⟨htested, hw⟩ : Follows known s (tested.records.map Record.item) s₁ ∧ _ :=
      condition_follows htest hu
    have ht₁ := htested.tracked ht
    have hT := ihT hbody ht₁ fun r => known r ∨ r = condition
    have hE := ihE horelse (hT.follows.reset.tracked ht₁) fun r => known r ∨ r = condition
    have hd := decisions_follow ht₁ hT.follows.toAdvances hE.follows.toAdvances hmerge
    have hboth := hT.follows.toAdvances.reset.append hE.follows.toAdvances
    have ht₄ := hd.tracked (hboth.reset.tracked ht₁)
    exact .branch htested hw hT hE hd (ih hr ht₄ known)
  | @loop target iter body line rest s s₂ s₃ v index os range B L
      htarget hiter hrange hbody _ ihB ih =>
    obtain ⟨hu, hn, hpb, hpr⟩ := hp.loop
    have hb := enterLoop_tracked ht.named index
    have hB := ihB hpb hb fun _ => False
    let call : Record :=
      .loop (s₂.registry.next (s₂.plateBase index)).1 (s₂.loopInputs index)
    have hindex := loopIndex_ordinary htarget hn
    have hcall := loop_follows known call hiter hrange hB.follows.toAdvances hbody.before hu hindex
    obtain ⟨domains, hd⟩ := s.scope.declareDefault_eq index .integer
    refine .loop hcall hindex (.of_fresh hb (.nil _)) ⟨body, hbody⟩ hB ?_ ?_
      (ih hpr (hcall.tracked ht) known)
    · unfold enterLoop
      rw [hd]
      rfl
    · exact Int.ofNat_le.mpr ((Registry.before_next _ _).count _)
  | @definition name parameters body line rest s s₁ s₂ s₃ r input vars B L
      hclaim hparameters hbody _ _ _ ihB ih =>
    obtain ⟨hn, hpb, hpr⟩ := hp.definition
    obtain ⟨ha, hr⟩ := parameters_advance hparameters hn
    have hb := ha.tracked (enterFunction_tracked name r)
    have hregistry := Lowers.before_of_definition hclaim hparameters hbody
    have hmade : Follows known s [] ⟨s.scope, s₂.registry⟩ :=
      .of_advances (.idle rfl rfl (.nil _) nofun hregistry)
    exact .definition hmade (.of_fresh hb hr) ⟨body, hbody⟩ (ihB hpb hb _)
      (ih hpr (hmade.tracked ht) known)

end ProgramGraph
