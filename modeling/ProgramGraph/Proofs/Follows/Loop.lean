import ProgramGraph.Proofs.Follows.Assignment

/-! Loops follow, and so do the parameters of a function: whatever their bodies do stays inside. -/
namespace ProgramGraph

open ProgramGraph.Graph

namespace Lowering

theorem mem_of_rangeBound {bound : Bound} {line : Option Int} {os : List Operand} {b : RangeBound}
    (h : rangeBound bound line os = .ok b) : ∀ r ∈ b.reads, Input.ref r ∈ Operand.leavesOf os := by
  unfold rangeBound at h
  split at h
  · obtain rfl := Except.ok.inj h
    intro q hq
    obtain rfl := List.mem_singleton.mp hq
    exact List.mem_cons_self
  · split at h
    · obtain rfl := Except.ok.inj h
      exact nofun
    · cases h
  · cases h

theorem mem_of_rangeOf {line : Option Int} {os : List Operand} {range : Range}
    (h : rangeOf line os = .ok range) : ∀ r ∈ range.reads, Input.ref r ∈ Operand.leavesOf os := by
  unfold rangeOf at h
  split at h
  · split at h
    · obtain ⟨start, hs, h⟩ := except_bind_eq_ok.mp h
      obtain ⟨stop, he, h⟩ := except_bind_eq_ok.mp h
      obtain rfl := except_pure_eq_ok.mp h
      intro r hr
      simp only [Operand.leavesOf, Operand.leaves, Operand.leavesOfArguments, List.append_nil,
        List.mem_cons, reduceCtorEq, false_or, List.mem_append]
      exact (List.mem_append.mp hr).imp (mem_of_rangeBound hs r) (mem_of_rangeBound he r)
    · cases h
  · cases h

theorem enterLoop_tracked {s : LoweringState} (ht : ∀ x ∈ s.scope.conditions, isConditionName x)
    (index : String) : (s.enterLoop index).Tracked := by
  obtain ⟨domains, hd⟩ := s.scope.declareDefault_eq index .integer
  refine ⟨fun x hx => ht x ?_, nofun⟩
  unfold LoweringState.enterLoop at hx
  rwa [hd] at hx

theorem loopIndex_ordinary {target : Expr} {line : Option Int} {index : String}
    (h : loopIndex target line = .ok index)
    (hn : ∀ x ∈ target.targetName?.toList, isConditionName x = false) :
    isConditionName index = false := by
  unfold loopIndex at h
  split at h
  · obtain rfl := Except.ok.inj h
    exact hn _ (by simp [Expr.targetName?])
  all_goals cases h

/-- The index of a loop gets its next version outside of the body, which leaves nothing else
there but its conditions. -/
theorem loop_advances {index : String} {v : Versions} {s s₂ : LoweringState} {is js : List Item}
    {i : Item} (hiter : Advances s js (s.withVersions v))
    (hbody : Advances (s.enterLoop index) is s₂) (hregistry : s.registry.Before s₂.registry)
    (hindex : isConditionName index = false) (hi : i.write = some ⟨index, (v.write index).1⟩) :
    Advances s (js ++ [i])
      { s₂.withVersions (v.write index).2 with
        registry := (s₂.registry.next (s₂.plateBase index)).2 } := by
  obtain ⟨domains, hd⟩ := s.scope.declareDefault_eq index .integer
  have hwrite : Advances (s.withVersions v) [i] (s.withVersions (v.write index).2) :=
    .write hindex hi
  have hleave : Advances (s.withVersions (v.write index).2) []
      { s₂.withVersions (v.write index).2 with
        registry := (s₂.registry.next (s₂.plateBase index)).2 } := by
    refine .leave (hbody.owner.trans ?_) rfl (fun x hx => hbody.conditions x ?_)
      (hregistry.trans (Registry.before_next _ _)) fun ht =>
        (hbody.tracked (enterLoop_tracked (s := s) ht.named index)).named
    · unfold LoweringState.enterLoop
      rw [hd]
      rfl
    · unfold LoweringState.enterLoop
      rw [hd]
      exact hx
  have hall := (hiter.append hwrite).append hleave
  rwa [List.append_nil] at hall

theorem loop_follows {iter : Expr} {line : Option Int} {index : String} {os : List Operand}
    {range : Range} {v : Versions} {s s₂ : LoweringState}
    {is : List Item} (known : Reference → Prop) (record : Record)
    (hiter : iter.operands s.versions = .ok (os, v)) (hrange : rangeOf line os = .ok range)
    (hbody : Advances (s.enterLoop index) is s₂) (hregistry : s.registry.Before s₂.registry)
    (hu : Plain iter.uses) (hindex : isConditionName index = false) :
    Follows known s [⟨record, range.reads, some ⟨index, (v.write index).1⟩⟩]
      { s₂.withVersions (v.write index).2 with
        registry := (s₂.registry.next (s₂.plateBase index)).2 } := by
  obtain ⟨hread, hl⟩ := operands_advance hiter hu
  refine ⟨loop_advances hread hbody hregistry hindex rfl, .of_known fun i hi r hr => ?_⟩
  obtain rfl := List.mem_singleton.mp hi
  exact .inl (hl r (mem_of_rangeOf hrange r hr))

theorem parameters_advance {parameters : List Parameter} {line : Option Int}
    {s s' : LoweringState} (h : parameters.forM (parameter line) s = .ok ((), s'))
    (hn : ∀ p ∈ parameters, isConditionName p.name = false) :
    Advances s [] s' ∧ s.versions.Reads (parameters.map Parameter.name) s'.versions := by
  induction parameters generalizing s with
  | nil =>
    obtain ⟨-, rfl⟩ := pure_eq_ok.mp h
    exact ⟨.idle rfl rfl (.nil _) nofun (.refl _), .nil _⟩
  | cons p parameters ih =>
    obtain ⟨_, s₁, hp, h⟩ := bind_eq_ok.mp h
    obtain ⟨d, rfl⟩ := parameter_eq_ok hp
    rw [List.forall_mem_cons] at hn
    obtain ⟨ha, hr⟩ := ih h hn.2
    have hread : s.versions.Reads [p.name] (s.versions.read p.name).2 := .read _ _
    have hfirst : Advances s [] { s with scope :=
        { s.scope.declare p.name d with versions := (s.versions.read p.name).2 } } :=
      .idle rfl rfl hread (by simpa using hn.1) (.refl _)
    exact ⟨hfirst.append ha, hread.append hr⟩

end Lowering
end ProgramGraph
