import ProgramGraph.Proofs.Follows.Block
import ProgramGraph.Proofs.Isolation
import ProgramGraph.Proofs.Meaning.Evaluation

/-! Running the records of a block leaves the current version of each variable with the value that
the block gives it. -/
namespace ProgramGraph

open ProgramGraph.Graph Lowering

variable {V : Type} {I : Interpretation V} {σ τ : String → V} {ρ : Reference → V}

/-- The current version of each variable holds its value. -/
def LoweringState.Represents (s : LoweringState) (ρ : Reference → V) (σ : String → V) : Prop :=
  ∀ x, isConditionName x = false → ρ ⟨x, s.versions.current x⟩ = σ x

theorem inputStore_eq {s : LoweringState} (hr : s.Represents ρ σ) {input : List Input}
    (hv : ∀ r ∈ input.filterMap Input.reference?, s.Visible r) {r : Reference}
    (hm : r ∈ input.filterMap Input.reference?) : inputStore I ρ input r.name = σ r.name := by
  unfold inputStore
  cases hf : (input.filterMap Input.reference?).find? (·.name = r.name) with
  | none => exact absurd (List.find?_eq_none.mp hf r hm) (by simp)
  | some q =>
    obtain ⟨hn, hi⟩ := hv q (List.mem_of_find?_eq_some hf)
    have hname : q.name = r.name := by simpa using List.find?_some hf
    obtain ⟨x, k⟩ := q
    obtain rfl : k = s.versions.current x := hi
    exact (hr x hn).trans (congrArg σ hname)

/-- What a record sees of its operands is enough to evaluate them. -/
theorem eval_inputStore {s : LoweringState} {e : Expr} {os : List Operand} {v : Versions}
    {carried : List Reference} (ho : e.operands s.versions = .ok (os, v)) (hu : Plain e.uses)
    (hc : ∀ r ∈ carried, s.Visible r) (hr : s.Represents ρ σ) :
    e.eval I (inputStore I ρ (Operand.inputs os carried)) = e.eval I σ ∧
      ∀ r ∈ carried, inputStore I ρ (Operand.inputs os carried) r.name = σ r.name := by
  obtain ⟨-, hl⟩ := operands_advance ho hu
  have hv : ∀ r ∈ (Operand.inputs os carried).filterMap Input.reference?, s.Visible r :=
    fun r hm => (Operand.mem_reads_inputs.mp hm).elim (hc r) (hl r)
  refine ⟨Expr.eval_congr e ho (fun u hm => (hu u hm).1) fun r hm => ?_, fun r hm => ?_⟩
  · exact inputStore_eq hr hv (Operand.mem_reads_inputs.mpr (.inr hm))
  · exact inputStore_eq hr hv (Operand.mem_reads_inputs.mpr (.inl hm))

/-- An assignment is represented by its record. -/
theorem represents_assignment {s s₁ : LoweringState} {target value : Expr} {os : List Operand}
    {v : Versions} {t : Target} {name : String} (ho : value.operands s.versions = .ok (os, v))
    (ht : target.target v = .ok (t, s₁.versions)) (hu : Plain value.uses)
    (hn : ∀ x, target.targetName? = some x → isConditionName x = false)
    (hr : s.Represents ρ σ) :
    s₁.Represents
      (Record.run I (.value name t.reference (Operand.inputs os t.carried.toList))
        (.assignment target value) ρ)
      (target.store I (value.eval I σ) σ) := by
  obtain ⟨hv, -⟩ := Expr.operands_reads value ho fun u hm => (hu u hm).1
  obtain ⟨x, w, hx, href, hw, hs₁, hcases⟩ := Expr.target_eq_ok ht
  have hcarried : ∀ r ∈ t.carried.toList, s.Visible r := by
    intro r hm
    rcases hcases with ⟨-, hc⟩ | ⟨-, hc⟩
    · rw [hc] at hm
      cases hm
    · rw [hc] at hm
      obtain rfl := List.mem_singleton.mp hm
      exact ⟨hn x hx, hv.current x⟩
  obtain ⟨heval, hsaw⟩ := eval_inputStore (I := I) ho hu hcarried hr
  have hassigned : target.assigned I (inputStore I ρ (Operand.inputs os t.carried.toList))
      (value.eval I (inputStore I ρ (Operand.inputs os t.carried.toList))) =
      target.assigned I σ (value.eval I σ) := by
    rw [heval]
    rcases hcases with ⟨⟨access, own, rfl⟩, -⟩ | ⟨⟨access, own, index, access', own', rfl, hi⟩, hc⟩
    · rfl
    · have hbase := hsaw ⟨x, v.current x⟩ (by rw [hc]; exact List.mem_cons_self)
      simp only [Expr.assigned]
      rw [hbase, Expr.eval_of_isConstantIndex hi]
  intro y hy
  have hcurrent : s₁.versions.current y =
      if y = x then v.upcoming x else s.versions.current y := by
    rw [hs₁, Versions.current_write, hw.toSame.upcoming, hw.current, hv.current]
  simp only [Record.run, Meaning.value, hassigned, Expr.store, hx, href, hcurrent]
  by_cases h : y = x
  · subst h
    rw [if_pos rfl, Function.update_self, Function.update_self]
  · rw [if_neg h, Function.update_of_ne h, Function.update_of_ne (by simp [h])]
    exact hr y hy

theorem run_singleton (r : Record) (m : Meaning) : run I [(r, m)] ρ = r.run I m ρ := rfl

/-- An assignment to one target has one record. -/
theorem assignTargets_records {statement : Except Fault String} {line : Option Int}
    {operands : List Operand} {t : Target} {s s' : LoweringState} {f : Fragment}
    (h : assignTargets statement line operands [t] s = .ok (f, s')) :
    s'.versions = s.versions ∧ ∃ name, f.records =
      [.value name t.reference (Operand.inputs operands t.carried.toList)] := by
  obtain ⟨-, hs, hrecords⟩ := assignTargets_advances h
  refine ⟨hs, ?_⟩
  generalize f.records = records at hrecords ⊢
  cases hrecords with
  | cons h₁ hnil =>
    cases hnil
    obtain ⟨name, rfl⟩ := h₁
    exact ⟨name, rfl⟩

theorem represents_assign {s s₁ : LoweringState} {target value : Expr} {line : Option Int}
    {made : Fragment} (h : Lowering.assign [target] value line s = .ok (made, s₁))
    (hu : Plain value.uses)
    (hn : ∀ x ∈ [target].filterMap Expr.targetName?, isConditionName x = false)
    (hr : s.Represents ρ σ) :
    s₁.Represents (run I (made.records.map (·, .assignment target value)) ρ)
      (target.store I (value.eval I σ) σ) := by
  obtain ⟨os, v, written, v', ho, hwritten, hf⟩ := assign_eq_ok h
  rw [List.mapM_cons] at hwritten
  obtain ⟨t, w, ht, hrest⟩ := bind_eq_ok.mp hwritten
  obtain ⟨_, _, hnil, hrest⟩ := bind_eq_ok.mp hrest
  obtain ⟨rfl, rfl⟩ := pure_eq_ok.mp hnil
  obtain ⟨rfl, rfl⟩ := pure_eq_ok.mp hrest
  obtain ⟨hs₁, name, hname⟩ := assignTargets_records hf
  rw [hname, List.map_singleton, run_singleton]
  exact represents_assignment ho (hs₁ ▸ ht) hu (fun x hx => hn x (by simp [hx])) hr

/-- A declaration without a value changes nothing. -/
theorem represents_annAssign {s s₁ : LoweringState} {target typeExpr : Expr} {value : Option Expr}
    {line : Option Int} {made : Fragment}
    (h : Lowering.annAssign target typeExpr value line s = .ok (made, s₁))
    (hfree : Stmt.isLoopFree (.annAssign target typeExpr value line) = true)
    (hu : Plain (Expr.usesOfEach (initialValue? value).toList))
    (hn : ∀ x ∈ target.targetName?.toList, isConditionName x = false) (hr : s.Represents ρ σ) :
    let t : Stmt := .annAssign target typeExpr value line
    s₁.Represents (run I (made.records.map (·, t.meaning)) ρ) (t.exec I σ) := by
  obtain ⟨x, d, -, ⟨hnone, rfl, rfl⟩ | ⟨e, os, v, written, v', he, ho, ht, hf⟩⟩ := annAssign_eq_ok h
  · have hvalue : value = none := by
      unfold initialValue? at hnone
      split at hnone
      · cases hfree
      · rfl
      · cases hnone
    subst hvalue
    exact hr
  · have hvalue : value = some e := by
      unfold initialValue? at he
      split at he
      · cases he
      · cases he
      · exact he
    subst hvalue
    obtain ⟨hs₁, name, hname⟩ := assignTargets_records hf
    have hue : Plain e.uses := by
      rw [he] at hu
      simpa [Expr.usesOfEach] using hu
    simp only [Stmt.meaning, Stmt.exec]
    rw [hname, List.map_singleton, run_singleton]
    have hs : s₁.versions = v' := hs₁
    exact represents_assignment ho (hs ▸ ht) hue (fun y hy => hn y (by simp [hy])) hr

theorem represents_effect {s s₁ : LoweringState} {value : Expr} {line : Option Int}
    {made : Fragment} (h : Lowering.effect value line s = .ok (made, s₁)) (hu : Plain value.uses)
    (hr : s.Represents ρ σ) :
    s₁.Represents (run I (made.records.map (·, .effect)) ρ) σ := by
  obtain ⟨func, args, keywords, own, callee, arguments, v, input, rfl, -, ho, -, rfl, rfl⟩ :=
    effect_eq_ok h
  obtain ⟨hv, -⟩ := Expr.operandsOfEach_reads args ho fun u hm => (hu u hm).1
  intro x hx
  have hcurrent : (s.withVersions v).versions.current x = s.versions.current x := hv.current x
  rw [hcurrent]
  exact hr x hx

/-- The condition holds the value of the test. -/
theorem represents_condition {s s₁ : LoweringState} {test : Expr} {line : Option Int}
    {tested : Fragment} {condition : Reference}
    (h : Lowering.condition test line s = .ok ((tested, condition), s₁)) (hu : Plain test.uses)
    (hr : s.Represents ρ σ) :
    let ρ₁ := run I (tested.records.map (·, .test test)) ρ
    s₁.Represents ρ₁ σ ∧ ρ₁ condition = test.eval I σ ∧ isConditionName condition.name = true := by
  obtain ⟨os, v, text, ho, -, rfl, rfl, rfl⟩ := condition_eq_ok h
  obtain ⟨hv, -⟩ := Expr.operands_reads test ho fun u hm => (hu u hm).1
  have hnone : ∀ r ∈ ([] : List Reference), s.Visible r := nofun
  obtain ⟨heval, -⟩ := eval_inputStore (I := I) ho hu hnone hr
  refine ⟨fun x hx => ?_, ?_, isConditionName_conditionName _⟩
  · have hne : x ≠ conditionName (s.registry.take (s.owner ++ "#condition")).1 := by
      rintro rfl
      rw [isConditionName_conditionName] at hx
      cases hx
    have hcurrent := (Versions.current_pin v _ x 0).trans (if_neg hne)
    refine Eq.trans (Function.update_of_ne (fun h => hne (congrArg Reference.name h)) _ _) ?_
    change ρ ⟨x, (v.pin _ 0).current x⟩ = σ x
    rw [hcurrent, hv.current]
    exact hr x hx
  · refine Eq.trans (Function.update_self _ _ _) ?_
    exact heval

end ProgramGraph
