import ProgramGraph.Proofs.Literals.Recorded
import ProgramGraph.Proofs.LoopInputs
import ProgramGraph.Proofs.Scopes.Seen

/-! Every block marks the variables that its items name, and nothing else where it is complete. -/
namespace ProgramGraph

open ProgramGraph.Graph Lowering LoweringState Versions

theorem mem_mentioned {items : List Item} {x : String} :
    x ∈ mentioned items ↔ ∃ i ∈ items, ∃ r, (r ∈ i.reads ∨ i.write = some r) ∧ r.name = x := by
  simp only [mentioned, List.mem_flatMap, List.mem_map, List.mem_append, Option.mem_toList]

theorem mem_namesOf_inputs {operands : List Operand} {carried : List Reference} {x : String} :
    x ∈ namesOf (Operand.inputs operands carried) ↔
      x ∈ carried.map Reference.name ∨ x ∈ namesOf (Operand.leavesOf operands) := by
  simp only [mem_namesOf, Operand.inputs, mem_distinct, List.mem_append, List.mem_map,
    Input.ref.injEq, exists_eq_right, or_and_right, exists_or]

theorem mentioned_value (name : String) (output : Reference) (input : List Input) :
    mentioned [(Record.value name output input).item] = namesOf input ++ [output.name] := by
  change ((input.filterMap Input.reference? ++ [output]).map Reference.name) ++ [] = _
  rw [List.append_nil, List.map_append, List.map_filterMap]
  rfl

namespace Lowering
variable {exact : Prop} {s s' : LoweringState} {f : Fragment} {line : Option Int}

/-- Targets mark their variables, which are those of the arrays that they carry. -/
theorem targets_mark {targets : List Expr} {v v' : Versions} {written : List Target}
    (h : targets.mapM Expr.target v = .ok (written, v')) :
    v.Marks exact (written.map (·.reference.name)) v' ∧
      ∀ t ∈ written, ∀ r ∈ t.carried, r.name = t.reference.name := by
  induction targets generalizing v written with
  | nil =>
    obtain ⟨rfl, rfl⟩ := pure_eq_ok.mp h
    exact ⟨.refl _, nofun⟩
  | cons e rest ih =>
    rw [List.mapM_cons] at h
    obtain ⟨t, w, he, h⟩ := bind_eq_ok.mp h
    obtain ⟨ts, w', hts, h⟩ := bind_eq_ok.mp h
    obtain ⟨rfl, rfl⟩ := pure_eq_ok.mp h
    obtain ⟨hmarks, hcarried⟩ := ih hts
    obtain ⟨x, u, -, ht, hu, rfl, hc⟩ := Expr.target_eq_ok he
    have hfirst : v.Marks exact [t.reference.name] (u.write x).2 := by
      rw [ht]
      have hwrite : u.Marks exact [x] (u.write x).2 := marks_write u x
      refine ⟨⟨hu.extends.trans hwrite.toExtends, hwrite.covered⟩, fun he y hy => ?_⟩
      rcases hwrite.only he y hy with hy | hy
      · by_cases hyx : y = x
        · exact .inr (by simp [hyx])
        · left
          unfold Seen at hy ⊢
          rwa [hu.latest y (by simpa using hyx)] at hy
      · exact .inr hy
    refine ⟨hfirst.append hmarks, List.forall_mem_cons.mpr ⟨fun r hr => ?_, hcarried⟩⟩
    rcases hc with ⟨-, hc⟩ | ⟨-, hc⟩
    · rw [hc] at hr
      cases hr
    · rw [hc] at hr
      obtain rfl := Option.some.inj hr
      rw [ht]

/-- The records of targets name the targets and, if there are any, all operands. -/
theorem mentioned_records {operands : List Operand} {records : List Record} {ts : List Target}
    (hr : List.Forall₂ (RecordOf operands) records ts)
    (hc : ∀ t ∈ ts, ∀ r ∈ t.carried, r.name = t.reference.name) :
    mentioned (records.map Record.item) ⊆
        namesOf (Operand.leavesOf operands) ++ ts.map (·.reference.name) ∧
      (ts ≠ [] → namesOf (Operand.leavesOf operands) ++ ts.map (·.reference.name) ⊆
        mentioned (records.map Record.item)) := by
  induction hr with
  | nil => exact ⟨nofun, fun h => absurd rfl h⟩
  | @cons record t records ts hrecord hrest ih =>
    rw [List.forall_mem_cons] at hc
    obtain ⟨hsub, hall⟩ := ih hc.2
    obtain ⟨name, rfl⟩ := hrecord
    have hcons : mentioned ((Record.value name t.reference
        (Operand.inputs operands t.carried.toList) :: records).map Record.item) =
        namesOf (Operand.inputs operands t.carried.toList) ++ [t.reference.name] ++
          mentioned (records.map Record.item) := by
      rw [← mentioned_value, ← mentioned_append]
      rfl
    have hcarried : t.carried.toList.map Reference.name ⊆ [t.reference.name] := by
      intro x hx
      obtain ⟨r, hr, rfl⟩ := List.mem_map.mp hx
      exact List.mem_singleton.mpr (hc.1 r (Option.mem_toList.mp hr))
    rw [hcons]
    constructor
    · intro x hx
      simp only [List.mem_append, mem_namesOf_inputs, List.map_cons, List.mem_cons,
        List.not_mem_nil, or_false] at hx ⊢
      rcases hx with ((hx | hx) | hx) | hx
      · exact .inr (.inl (List.mem_singleton.mp (hcarried hx)))
      · exact .inl hx
      · exact .inr (.inl hx)
      · exact (List.mem_append.mp (hsub hx)).imp_right .inr
    · intro _ x hx
      simp only [List.mem_append, mem_namesOf_inputs, List.map_cons, List.mem_cons,
        List.not_mem_nil, or_false] at hx ⊢
      rcases hx with hx | hx | hx
      · exact .inl (.inl (.inr hx))
      · exact .inl (.inr hx)
      · have hne : ts ≠ [] := by
          rintro rfl
          cases hx
        exact .inr (hall hne (List.mem_append_right _ hx))

theorem assignment_marks {e : Expr} {targets : List Expr} {statement : Except Fault String}
    {operands : List Operand} {written : List Target} {v v' : Versions}
    (ho : e.operands s.versions = .ok (operands, v))
    (ht : targets.mapM Expr.target v = .ok (written, v'))
    (hf : assignTargets statement line operands written (s.withVersions v') = .ok (f, s'))
    (hp : exact → e.All Expr.isPaired ∧ written ≠ []) :
    s.versions.Marks exact (mentioned (f.records.map Record.item)) s'.versions := by
  obtain ⟨-, hv, hr⟩ := assignTargets_advances hf
  obtain ⟨hmarks, hcarried⟩ := targets_mark ht
  obtain ⟨hsub, hall⟩ := mentioned_records hr hcarried
  have hoperands := e.operands_mark ho fun he => (hp he).1
  rw [hv]
  exact (hoperands.append hmarks).of_subset hsub fun he => hall (hp he).2

theorem assign_marks {targets : List Expr} {value : Expr}
    (h : assign targets value line s = .ok (f, s'))
    (hp : exact → (Stmt.assign targets value line).IsComplete) :
    s.versions.Marks exact (mentioned (f.records.map Record.item)) s'.versions := by
  obtain ⟨operands, v, written, v', ho, ht, hf⟩ := assign_eq_ok h
  refine assignment_marks ho ht hf fun he => ⟨(hp he).2, ?_⟩
  cases targets with
  | nil => exact absurd rfl (hp he).1
  | cons e rest =>
    rw [List.mapM_cons] at ht
    obtain ⟨t, _, -, ht⟩ := bind_eq_ok.mp ht
    obtain ⟨ts, _, -, ht⟩ := bind_eq_ok.mp ht
    obtain ⟨rfl, -⟩ := pure_eq_ok.mp ht
    exact List.cons_ne_nil _ _

theorem annAssign_marks {target typeExpr : Expr} {value : Option Expr}
    (h : annAssign target typeExpr value line s = .ok (f, s'))
    (hp : exact → (Stmt.annAssign target typeExpr value line).IsComplete) :
    s.versions.Marks exact (mentioned (f.records.map Record.item)) s'.versions := by
  obtain ⟨x, d, -, ⟨-, rfl, rfl⟩ | ⟨e, operands, v, written, v', he, ho, ht, hf⟩⟩ :=
    annAssign_eq_ok h
  · exact .refl _
  · have hone := mapM_target_singleton ht
    have hmarks : ({ s with scope := s.scope.declare x d } : LoweringState).versions.Marks exact
        (mentioned (f.records.map Record.item)) s'.versions :=
      assignment_marks ho hone hf fun hexact => ⟨hp hexact e he, List.cons_ne_nil _ _⟩
    exact hmarks

theorem namesOf_effectInputs {arguments : List (List Operand)} {input : List Reference}
    (h : effectInputs line arguments = .ok input) :
    namesOf (Operand.leavesOfArguments arguments) = input.map Reference.name := by
  fun_induction effectInputs line arguments generalizing input with
  | case1 =>
    cases h
    rfl
  | case2 rest l ih => exact ih h
  | case3 r rest ih =>
    obtain ⟨others, ho, h⟩ := except_bind_eq_ok.mp h
    obtain rfl := except_pure_eq_ok.mp h
    exact congrArg (r.name :: ·) (ih ho)
  | case4 => cases h
  | case5 => cases h

theorem effect_marks {value : Expr} (h : effect value line s = .ok (f, s'))
    (hp : exact → value.All Expr.isPaired) :
    s.versions.Marks exact (mentioned (f.records.map Record.item)) s'.versions := by
  obtain ⟨func, args, keywords, own, callee, arguments, v, input, rfl, -, ho, hi, rfl, rfl⟩ :=
    effect_eq_ok h
  have hargs := Expr.operandsOfEach_mark args ho fun he => (hp he).call
  have hitem : mentioned ([Record.call callee input].map Record.item) = input.map Reference.name := by
    simp [mentioned, Record.item, Record.reads, Record.output?]
  rw [hitem, ← namesOf_effectInputs hi]
  exact hargs

/-- The condition is among the variables that are marked. -/
theorem condition_marks {test : Expr} {output : Reference}
    (h : condition test line s = .ok ((f, output), s')) (hp : exact → test.All Expr.isPaired) :
    s.versions.Marks exact (mentioned (f.records.map Record.item)) s'.versions ∧
      s'.versions.Seen output.name := by
  obtain ⟨operands, v, text, ho, -, rfl, rfl, rfl⟩ := condition_eq_ok h
  let x := conditionName (s.registry.take (s.owner ++ "#condition")).1
  have hmarks : s.versions.Marks exact (namesOf (Operand.leavesOf operands) ++ [x]) (v.pin x 0) :=
    (test.operands_mark ho hp).append (marks_pin v x 0)
  have hinputs : ∀ y, y ∈ namesOf (Operand.inputs operands []) ↔
      y ∈ namesOf (Operand.leavesOf operands) := by simp [mem_namesOf_inputs]
  refine ⟨hmarks.of_subset ?_ fun _ => ?_, hmarks.covered x (by simp)⟩
  · rw [List.map_singleton, mentioned_value]
    intro y hy
    exact List.mem_append.mpr ((List.mem_append.mp hy).imp_left (hinputs y).mp)
  · rw [List.map_singleton, mentioned_value]
    intro y hy
    exact List.mem_append.mpr ((List.mem_append.mp hy).imp_left (hinputs y).mpr)

section
variable {test : Reference} {start thenExit elseExit : Table Int}

theorem mergeVariable_marks {x : String}
    (h : mergeVariable test start thenExit elseExit x s = .ok (f, s'))
    (hstart : (start.get? x).isSome → s.versions.Seen x) :
    s.versions.Marks exact [x] s'.versions := by
  refine ⟨mergeVariable_covers h hstart, fun he y hy => ?_⟩
  rcases mergeVariable_eq_ok h with ⟨-, -, rfl⟩ | ⟨-, -, -, rfl⟩ | ⟨-, a, b, -, -, rfl⟩
  · exact (marks_pin _ x 0).only he y hy
  · split at hy
    · exact (marks_pin _ x _).only he y hy
    · exact .inl hy
  · exact (marks_write _ x).only he y hy

theorem mergeVariables_mark {names : List String}
    (h : mergeVariables test start thenExit elseExit names s = .ok (f, s'))
    (hstart : ∀ x, (start.get? x).isSome → s.versions.Seen x) :
    s.versions.Marks exact names s'.versions := by
  induction names generalizing s f with
  | nil =>
    obtain ⟨-, rfl⟩ := pure_eq_ok.mp h
    exact .refl _
  | cons x names ih =>
    obtain ⟨first, s₁, hf, h⟩ := bind_eq_ok.mp h
    obtain ⟨others, s₂, ho, h⟩ := bind_eq_ok.mp h
    obtain ⟨-, rfl⟩ := pure_eq_ok.mp h
    have hx : s.versions.Marks exact [x] s₁.versions := mergeVariable_marks hf (hstart x)
    exact hx.append (ih ho fun y hy => hx.seen y (hstart y hy))

theorem mentioned_decisions {names : List String}
    (h : mergeVariables test start thenExit elseExit names s = .ok (f, s')) :
    mentioned (f.records.map Record.item) ⊆ test.name :: names := by
  refine mergeVariables_induction
    (motive := fun _ f _ => mentioned (f.records.map Record.item) ⊆ test.name :: names) h
    (fun _ => nofun) ?_ ?_
  · intro s s' s'' f g hf hg
    change mentioned ((f.records ++ g.records).map Record.item) ⊆ _
    rw [List.map_append, mentioned_append]
    exact List.append_subset.mpr ⟨hf, hg⟩
  · intro x hx s s' f h
    rcases mergeVariable_eq_ok h with ⟨-, rfl, -⟩ | ⟨-, -, rfl, -⟩ | ⟨-, a, b, -, rfl, -⟩
    · exact nofun
    · exact nofun
    · change [test.name, x, x, x] ⊆ _
      simp [List.cons_subset, hx]

end

/-- The merge brings what either branch has seen back to where they started. -/
theorem branch_marks {condition : Reference} {s₁ s₂ s₃ s₄ : LoweringState} {xs ys : List String}
    {decisions : Fragment} (hcondition : s₁.versions.Seen condition.name)
    (hthen : s₁.versions.Marks exact xs s₂.versions)
    (helse : (s₂.withLatest s₁.versions.latest).versions.Marks exact ys s₃.versions)
    (hmerge : mergeVariables condition s₁.versions.latest s₂.versions.latest s₃.versions.latest
      (distinct (s₁.versions.latest.keys ++ s₂.versions.latest.keys ++ s₃.versions.latest.keys))
      (s₃.withLatest s₁.versions.latest) = .ok (decisions, s₄)) :
    s₁.versions.Marks exact (xs ++ ys ++ mentioned (decisions.records.map Record.item))
      s₄.versions := by
  have hmerged : (s₃.withLatest s₁.versions.latest).versions.Marks exact _ s₄.versions :=
    mergeVariables_mark hmerge fun _ hx => hx
  have hnames : ∀ x, x ∈ distinct (s₁.versions.latest.keys ++ s₂.versions.latest.keys ++
      s₃.versions.latest.keys) ↔
      (s₁.versions.Seen x ∨ s₂.versions.Seen x) ∨ s₃.versions.Seen x := by
    intro x
    rw [mem_distinct, List.mem_append, List.mem_append, mem_keys_iff_seen, mem_keys_iff_seen,
      mem_keys_iff_seen]
  have hback : s₁.versions.Extends (s₃.withLatest s₁.versions.latest).versions :=
    ⟨helse.baseline.trans hthen.baseline, fun _ hx => hx⟩
  have hextends := hback.trans hmerged.toExtends
  constructor
  case toCovers =>
    refine ⟨hextends, fun x hx => ?_⟩
    rcases List.mem_append.mp hx with hx | hx
    · refine hmerged.covered x ((hnames x).mpr ?_)
      rcases List.mem_append.mp hx with hx | hx
      · exact .inl (.inr (hthen.covered x hx))
      · exact .inr (helse.covered x hx)
    · rcases List.mem_cons.mp (mentioned_decisions hmerge hx) with rfl | hx
      · exact hextends.seen _ hcondition
      · exact hmerged.covered x hx
  case only =>
    intro he x hx
    have hwhere : s₁.versions.Seen x ∨ x ∈ xs ∨ x ∈ ys := by
      rcases hmerged.only he x hx with hx | hx
      · exact .inl hx
      · rcases (hnames x).mp hx with (hx | hx) | hx
        · exact .inl hx
        · exact (hthen.only he x hx).imp_right .inl
        · exact (helse.only he x hx).imp_right .inr
    refine hwhere.imp_right fun hx => List.mem_append_left _ (List.mem_append.mpr hx)

theorem namesOf_rangeBound {bound : Bound} {os : List Operand} {b : RangeBound}
    (h : rangeBound bound line os = .ok b) :
    namesOf (Operand.leavesOf os) = b.reads.map Reference.name := by
  unfold rangeBound at h
  split at h
  · obtain rfl := Except.ok.inj h
    rfl
  · split at h
    · obtain rfl := Except.ok.inj h
      rfl
    · cases h
  · cases h

theorem namesOf_rangeOf {os : List Operand} {range : Range} (h : rangeOf line os = .ok range) :
    namesOf (Operand.leavesOf os) = range.reads.map Reference.name := by
  obtain ⟨start, stop, rfl, hstart, hstop⟩ := rangeOf_eq_ok h
  have hleaves : Operand.leavesOf [.call "range" [start, stop]] =
      .function "range" :: (Operand.leavesOf start ++ Operand.leavesOf stop) := by
    simp [Operand.leavesOf, Operand.leaves, Operand.leavesOfArguments]
  rw [hleaves, Range.reads, List.map_append, ← namesOf_rangeBound hstart, ← namesOf_rangeBound hstop]
  exact Expr.namesOf_append _ _

/-- The header of a loop marks the variables of its bounds and its index. -/
theorem header_marks {iter : Expr} {v : Versions} {os : List Operand} {range : Range}
    {index : String} (ho : iter.operands s.versions = .ok (os, v))
    (hr : rangeOf line os = .ok range) (hp : exact → iter.All Expr.isPaired) :
    s.versions.Marks exact (range.reads.map Reference.name ++ [index]) (v.write index).2 := by
  have hoperands := iter.operands_mark ho hp
  rw [namesOf_rangeOf hr] at hoperands
  exact hoperands.append (marks_write v index)

theorem parameters_mark {parameters : List Parameter}
    (h : parameters.forM (parameter line) s = .ok ((), s')) :
    s.versions.Marks exact (parameters.map Parameter.name) s'.versions := by
  induction parameters generalizing s with
  | nil =>
    obtain ⟨-, rfl⟩ := pure_eq_ok.mp h
    exact .refl _
  | cons p parameters ih =>
    obtain ⟨_, s₁, hp, h⟩ := bind_eq_ok.mp h
    obtain ⟨d, rfl⟩ := parameter_eq_ok hp
    exact (marks_read _ p.name).append (ih h)

end Lowering

/-- A block marks what its items name. -/
theorem Lowers.marks {exact : Prop} {block : List Stmt} {s s' : LoweringState} {L : Layout}
    (h : Lowers block s L s') (hc : exact → Stmt.AllComplete block) :
    s.versions.Marks exact (mentioned L.items) s'.versions := by
  induction h with
  | nil => exact .refl _
  | assign hmade _ ih =>
    have hfirst := assign_marks hmade fun he => (hc he).head
    have hrest := ih fun he => (hc he).cons.2
    rw [Layout.items, mentioned_append]
    exact hfirst.append hrest
  | annAssign hmade _ ih =>
    have hfirst := annAssign_marks hmade fun he => (hc he).head
    have hrest := ih fun he => (hc he).cons.2
    rw [Layout.items, mentioned_append]
    exact hfirst.append hrest
  | effect hmade _ ih =>
    have hfirst := effect_marks hmade fun he => (hc he).head
    have hrest := ih fun he => (hc he).cons.2
    rw [Layout.items, mentioned_append]
    exact hfirst.append hrest
  | branch htest _ _ hmerge _ ihT ihE ih =>
    obtain ⟨htested, hcondition⟩ := condition_marks htest fun he => (hc he).head
    have hthen := ihT fun he => (hc he).branch.1
    have helse := ihE fun he => (hc he).branch.2.1
    have hrest := ih fun he => (hc he).branch.2.2
    have hall := (htested.append (branch_marks hcondition hthen helse hmerge)).append hrest
    simpa only [Layout.items, mentioned_append, List.append_assoc] using hall
  | @loop target iter body line rest s s₂ s₃ v index os range B L _ hiter hrange _ _ _ ih =>
    have hheader : s.versions.Marks exact (range.reads.map Reference.name ++ [index])
        (v.write index).2 := header_marks hiter hrange fun he => (hc he).head
    have hrest := ih fun he => (hc he).loop.2
    have hall := hheader.append hrest
    simpa [Layout.items, mentioned] using hall
  | definition _ _ _ _ _ _ _ ih => exact ih fun he => (hc he).definition.2

end ProgramGraph
