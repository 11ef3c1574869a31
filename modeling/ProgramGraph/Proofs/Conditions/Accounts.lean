import ProgramGraph.Proofs.Naming
import ProgramGraph.Proofs.Retention
import ProgramGraph.Proofs.SingleAssignment

/-! What a part of a block accounts for: the conditions that its records compute, and the variables
that it writes. Uses need not be loads, so versions may be given without a record. -/
namespace ProgramGraph

open ProgramGraph.Graph Lowering LoweringState

/-- Every ordinary variable stands below its next version, and conditions are known as such. -/
structure LoweringState.Regular (s : LoweringState) : Prop extends s.Tracked where
  below : ∀ x, isConditionName x = false → s.versions.current x < s.versions.upcoming x

theorem Advances.regular {s s' : LoweringState} {is : List Item} (h : Advances s is s')
    (hs : s.Regular) : s'.Regular where
  toTracked := h.tracked hs.toTracked
  below x hx := by
    have hle : s.versions.upcoming x ≤ s'.versions.upcoming x := h.ascending.le (some x)
    rcases h.current x hx with he | hw
    · have hlt := hs.below x hx
      rw [he]
      omega
    · exact (h.ascending.mem_ordinary hx hw).2

/-- No variable that is accessed has the name of a condition. -/
def Lowering.Ordinary (uses : List (String × Access)) : Prop :=
  ∀ u ∈ uses, isConditionName u.1 = false

/-- Wherever a record of a function is named as a test, it computes a condition at its only version
from ordinary variables. -/
def Graph.TestsIn (owner : String) (rs : List Record) : Prop :=
  ∀ name output input, .value name output input ∈ rs →
    owner.toList ++ "__condition__".toList <+: name.toList →
    (∃ n, output = ⟨conditionName n, 0⟩) ∧ ∀ r, .ref r ∈ input → isConditionName r.name = false

namespace Graph.TestsIn
variable {owner : String} {rs qs : List Record}

theorem append (h : TestsIn owner rs) (h' : TestsIn owner qs) : TestsIn owner (rs ++ qs) := by
  intro name output input hm hp
  rcases List.mem_append.mp hm with hm | hm
  · exact h name output input hm hp
  · exact h' name output input hm hp

/-- A name cannot show two roles, unless one of them starts with the other. -/
theorem of_makes {role : String} {s s' : LoweringState} {r r' : Registry} {f : Fragment}
    (hparts : MakesParts role s f s') (hmakes : Makes r f r')
    (hrole : ¬role.toList <+: "__condition__".toList ∧ ¬"__condition__".toList <+: role.toList) :
    TestsIn s.owner f.records := by
  intro name output input hm hp
  obtain ⟨g, hg, _, _, he, -⟩ := hmakes.exists_computes hm
  obtain ⟨rfl, -, -⟩ := Record.value.inj he
  have hpart := (hparts.names g hg).isPrefix
  rcases List.prefix_or_prefix_of_prefix hp hpart with h | h
  · exact absurd ((List.prefix_append_right_inj _).mp h) hrole.2
  · exact absurd ((List.prefix_append_right_inj _).mp h) hrole.1

end Graph.TestsIn

theorem conditionsIn_eq_nil {rs : List Reference}
    (h : ∀ r ∈ rs, isConditionName r.name = false) : conditionsIn rs = [] :=
  List.filter_eq_nil_iff.mpr fun r hr => by simp [h r hr]

/-- A version that is given without a record. -/
def Item.silent (r : Reference) : Item := ⟨.loop "" [], [], some r⟩

/-- What is given between two states: the conditions of the records and, among others, the versions
at which some variables stand in the end. -/
structure Accounts (s : LoweringState) (rs : List Record) (xs : List String) (s' : LoweringState) :
    Prop where
  given : ∃ items, Advances s items s' ∧
    conditionsIn (writes items) = conditionsIn (rs.filterMap Record.output?) ∧
    ∀ x ∈ xs, isConditionName x = false ∧ ⟨x, s'.versions.current x⟩ ∈ writes items
  tests : TestsIn s.owner rs

namespace Accounts
variable {s s' s'' : LoweringState} {rs qs : List Record} {xs ys : List String}

theorem idle (h : Advances s [] s') : Accounts s [] [] s' := ⟨⟨[], h, rfl, nofun⟩, nofun⟩

theorem owner (h : Accounts s rs xs s') : s'.owner = s.owner := by
  obtain ⟨items, ha, -, -⟩ := h.given
  exact ha.owner

theorem baseline (h : Accounts s rs xs s') : s'.versions.baseline = s.versions.baseline := by
  obtain ⟨items, ha, -, -⟩ := h.given
  exact ha.baseline

theorem regular (h : Accounts s rs xs s') (hs : s.Regular) : s'.Regular := by
  obtain ⟨items, ha, -, -⟩ := h.given
  exact ha.regular hs

theorem append (h : Accounts s rs xs s') (h' : Accounts s' qs ys s'') :
    Accounts s (rs ++ qs) (xs ++ ys) s'' where
  given := by
    obtain ⟨is, ha, hc, hx⟩ := h.given
    obtain ⟨js, ha', hc', hy⟩ := h'.given
    refine ⟨is ++ js, ha.append ha', ?_, fun x hm => ?_⟩
    · rw [writes_append, List.filterMap_append, conditionsIn_append, conditionsIn_append, hc, hc']
    · rw [writes_append, List.mem_append]
      rcases List.mem_append.mp hm with hm | hm
      · obtain ⟨hn, hw⟩ := hx x hm
        refine ⟨hn, ?_⟩
        -- The second part leaves the variable there or writes it once more.
        rcases ha'.current x hn with he | hw'
        · rw [he]
          exact .inl hw
        · exact .inr hw'
      · obtain ⟨hn, hw⟩ := hy x hm
        exact ⟨hn, .inr hw⟩
  tests := h.tests.append (h.owner ▸ h'.tests)

/-- Behind a branch its variables stand where they stood before. -/
theorem reset (h : Accounts s rs xs s') : Accounts s rs [] (s'.withLatest s.versions.latest) := by
  obtain ⟨items, ha, hc, -⟩ := h.given
  exact ⟨⟨items, ha.reset, hc, nofun⟩, h.tests⟩

/-- A variable that is written has left its version at the start. -/
theorem moved (h : Accounts s rs xs s') (hs : s.Regular) {x : String} (hx : x ∈ xs) :
    s.versions.current x < s'.versions.current x := by
  obtain ⟨items, ha, -, hxs⟩ := h.given
  obtain ⟨hn, hw⟩ := hxs x hx
  have hlt := hs.below x hn
  have hle : s.versions.upcoming x ≤ s'.versions.current x :=
    (ha.ascending.mem_ordinary hn hw).1
  omega

theorem ordinary (h : Accounts s rs xs s') {x : String} (hx : x ∈ xs) :
    isConditionName x = false := by
  obtain ⟨items, -, -, hxs⟩ := h.given
  exact (hxs x hx).1

/-- The records compute no condition twice. -/
theorem conditions_nodup (h : Accounts s rs xs s') :
    (conditionsIn (rs.filterMap Record.output?)).Nodup := by
  obtain ⟨items, ha, hc, -⟩ := h.given
  rw [← hc]
  exact ha.ascending.nodup.filter _

theorem accesses {v v' : Versions} {us : List (String × Access)} (h : v.Accesses us v')
    (hu : Ordinary us) : Accounts (s.withVersions v) [] [] (s.withVersions v') := by
  induction h with
  | nil => exact .idle (.idle rfl rfl (.nil _) nofun (.refl _))
  | read v x =>
    have hx : isConditionName x = false := hu _ (List.mem_singleton_self _)
    exact .idle (.idle rfl rfl (.read v x) (by simpa using hx) (.refl _))
  | write v x =>
    have hx : isConditionName x = false := hu _ (List.mem_singleton_self _)
    have hw : Advances (s.withVersions v) [.silent ⟨x, v.upcoming x⟩]
        (s.withVersions (v.write x).2) := .write hx rfl
    refine ⟨⟨_, hw, conditionsIn_eq_nil ?_, nofun⟩, nofun⟩
    exact List.forall_mem_singleton.mpr hx
  | append _ _ ih ih' =>
    obtain ⟨hus, hws⟩ := List.forall_mem_append.mp hu
    exact (ih hus).append (ih' hws)

theorem target {e : Expr} {v v' : Versions} {t : Target} (h : e.target v = .ok (t, v'))
    (he : ∀ x ∈ e.targetName?.toList, isConditionName x = false) :
    Accounts (s.withVersions v) [] e.targetName?.toList (s.withVersions v') ∧
      isConditionName t.reference.name = false := by
  obtain ⟨x, w, hx, ht, hr, rfl, -⟩ := Expr.target_eq_ok h
  rw [hx] at he ⊢
  have hn : isConditionName x = false := he x (List.mem_singleton_self x)
  have hread : Accounts (s.withVersions v) [] [] (s.withVersions w) :=
    .idle (.idle rfl rfl hr (by simpa using hn) (.refl _))
  have hw : Advances (s.withVersions w) [.silent ⟨x, w.upcoming x⟩]
      (s.withVersions (w.write x).2) := .write hn rfl
  have hcurrent : (w.write x).2.current x = w.upcoming x := by
    rw [Versions.current_write, if_pos rfl]
  have hwrite : Accounts (s.withVersions w) [] [x] (s.withVersions (w.write x).2) := by
    refine ⟨⟨_, hw, conditionsIn_eq_nil ?_, ?_⟩, nofun⟩
    · exact List.forall_mem_singleton.mpr hn
    · refine List.forall_mem_singleton.mpr ⟨hn, ?_⟩
      change (⟨x, (w.write x).2.current x⟩ : Reference) ∈ [⟨x, w.upcoming x⟩]
      rw [hcurrent]
      exact List.mem_singleton_self _
  exact ⟨hread.append hwrite, ht ▸ hn⟩

theorem targets {targets : List Expr} {v v' : Versions} {written : List Target}
    (h : targets.mapM Expr.target v = .ok (written, v'))
    (ht : ∀ x ∈ targets.filterMap Expr.targetName?, isConditionName x = false) :
    Accounts (s.withVersions v) [] (targets.filterMap Expr.targetName?) (s.withVersions v') ∧
      ∀ t ∈ written, isConditionName t.reference.name = false := by
  induction targets generalizing v written with
  | nil =>
    obtain ⟨rfl, rfl⟩ := pure_eq_ok.mp h
    exact ⟨.idle (.idle rfl rfl (.nil _) nofun (.refl _)), nofun⟩
  | cons e rest ih =>
    rw [List.mapM_cons] at h
    obtain ⟨t, w, he, h⟩ := bind_eq_ok.mp h
    obtain ⟨ts, w', hts, h⟩ := bind_eq_ok.mp h
    obtain ⟨rfl, rfl⟩ := pure_eq_ok.mp h
    rw [Expr.targetNames_cons, List.forall_mem_append] at ht
    obtain ⟨hfirst, hn⟩ := target (s := s) he ht.1
    obtain ⟨hrest, hns⟩ := ih hts ht.2
    rw [Expr.targetNames_cons, List.forall_mem_cons]
    exact ⟨hfirst.append hrest, hn, hns⟩

end Accounts

namespace Lowering
variable {s s' : LoweringState} {line : Option Int} {f : Fragment}

theorem operands_account {e : Expr} {v : Versions} {os : List Operand}
    (h : e.operands s.versions = .ok (os, v)) (hu : Ordinary e.uses) :
    Accounts s [] [] (s.withVersions v) ∧
      ∀ r, .ref r ∈ Operand.leavesOf os → isConditionName r.name = false := by
  obtain ⟨ha, hi⟩ := e.operands_accesses h
  refine ⟨.accesses (s := s) ha hu, fun r hr => ?_⟩
  obtain ⟨access, hm, -⟩ := hi r hr
  exact hu _ hm

/-- The records of an assignment compute ordinary variables, and none is named as a test. -/
theorem assignTargets_account {statement : Except Fault String} {operands : List Operand}
    {ts : List Target} (h : assignTargets statement line operands ts s = .ok (f, s'))
    (ht : ∀ t ∈ ts, isConditionName t.reference.name = false) : Accounts s f.records [] s' := by
  obtain ⟨ha, -, hr⟩ := assignTargets_advances h
  have houtputs : ∀ r ∈ f.records.filterMap Record.output?, isConditionName r.name = false := by
    clear h ha
    generalize f.records = records at hr
    induction hr with
    | nil => exact nofun
    | cons hrecord _ ih =>
      obtain ⟨name, rfl⟩ := hrecord
      rw [List.forall_mem_cons] at ht
      exact List.forall_mem_cons.mpr ⟨ht.1, ih ht.2⟩
  refine ⟨⟨[], ha, (conditionsIn_eq_nil houtputs).symm, nofun⟩, ?_⟩
  exact .of_makes (assignTargets_parts h) (assignTargets_makes h) (by decide +kernel)

theorem assignment_account {e : Expr} {targets : List Expr} {statement : Except Fault String}
    {operands : List Operand} {written : List Target} {v v' : Versions}
    (ho : e.operands s.versions = .ok (operands, v))
    (ht : targets.mapM Expr.target v = .ok (written, v'))
    (hf : assignTargets statement line operands written (s.withVersions v') = .ok (f, s'))
    (hu : Ordinary e.uses)
    (hn : ∀ x ∈ targets.filterMap Expr.targetName?, isConditionName x = false) :
    Accounts s f.records (targets.filterMap Expr.targetName?) s' := by
  obtain ⟨hread, -⟩ := operands_account ho hu
  obtain ⟨hwritten, hnames⟩ := Accounts.targets (s := s) ht hn
  have hmade := assignTargets_account hf hnames
  have hall := (hread.append hwritten).append hmade
  simpa using hall

theorem assign_account {targets : List Expr} {value : Expr}
    (h : assign targets value line s = .ok (f, s')) (hu : Ordinary value.uses)
    (hn : ∀ x ∈ targets.filterMap Expr.targetName?, isConditionName x = false) :
    Accounts s f.records (targets.filterMap Expr.targetName?) s' := by
  obtain ⟨operands, v, written, v', ho, ht, hf⟩ := assign_eq_ok h
  exact assignment_account ho ht hf hu hn

theorem annAssign_account {target typeExpr : Expr} {value : Option Expr}
    (h : annAssign target typeExpr value line s = .ok (f, s'))
    (hu : Ordinary (Expr.usesOfEach (initialValue? value).toList))
    (hn : ∀ x ∈ target.targetName?.toList, isConditionName x = false) :
    Accounts s f.records (Stmt.annAssign target typeExpr value line).written s' := by
  unfold Stmt.written
  obtain ⟨x, d, -, ⟨hnone, rfl, rfl⟩ | h⟩ := annAssign_eq_ok h
  · rw [hnone]
    exact .idle (declare_advances s x d)
  · obtain ⟨e, operands, v, written, v', he, ho, ht, hf⟩ := h
    rw [he] at hu ⊢
    have hmap := mapM_target_singleton ht
    have hnames : [target].filterMap Expr.targetName? = target.targetName?.toList := by
      rw [Expr.targetNames_cons, List.filterMap_nil, List.append_nil]
    have hue : Ordinary e.uses := by simpa [Expr.usesOfEach] using hu
    have hmade := assignment_account (s := { s with scope := s.scope.declare x d }) ho hmap hf hue
      (by rwa [hnames])
    rw [hnames] at hmade
    have hdeclared : Accounts s [] [] { s with scope := s.scope.declare x d } :=
      .idle (declare_advances s x d)
    exact hdeclared.append hmade

theorem effect_account {value : Expr} (h : effect value line s = .ok (f, s'))
    (hu : Ordinary value.uses) : Accounts s f.records [] s' := by
  obtain ⟨func, args, keywords, own, callee, arguments, v, input, rfl, -, ho, -, rfl, rfl⟩ :=
    effect_eq_ok h
  obtain ⟨ha, -⟩ := Expr.operandsOfEach_accesses args ho
  obtain ⟨items, ha, hc, -⟩ := (Accounts.accesses (s := s) ha hu).given
  refine ⟨⟨items, ha, hc, nofun⟩, fun name output input hm => ?_⟩
  cases List.mem_singleton.mp hm

/-- A test reads what its expression uses, and computes the next condition of its function. -/
theorem condition_account {test : Expr} {output : Reference}
    (h : condition test line s = .ok ((f, output), s')) (hu : Ordinary test.uses) :
    Accounts s f.records [] s' := by
  obtain ⟨operands, v, text, ho, -, rfl, rfl, rfl⟩ := condition_eq_ok h
  obtain ⟨hread, hl⟩ := operands_account ho hu
  refine hread.append ⟨⟨[.silent ⟨conditionName _, 0⟩], .condition rfl rfl ?_, rfl, nofun⟩, ?_⟩
  · exact (Registry.before_next _ _).trans (Registry.before_render _ _ _)
  · intro name output input hm _
    obtain ⟨-, rfl, rfl⟩ := Record.value.inj (List.mem_singleton.mp hm)
    refine ⟨⟨_, rfl⟩, fun r hr => hl r ?_⟩
    simpa [Operand.inputs, mem_distinct] using hr

/-- The index of a loop is all that a loop gives to the scope around it. -/
theorem loop_account {iter : Expr} {index : String} {os : List Operand} {v : Versions}
    {s₂ : LoweringState} {rs : List Record} {xs : List String} (name : String)
    (inputs : List String) (hiter : iter.operands s.versions = .ok (os, v))
    (hbody : Accounts (s.enterLoop index) rs xs s₂) (hregistry : s.registry.Before s₂.registry)
    (hu : Ordinary iter.uses) (hindex : isConditionName index = false) :
    Accounts s [.loop name inputs] [index]
      { s₂.withVersions (v.write index).2 with
        registry := (s₂.registry.next (s₂.plateBase index)).2 } := by
  obtain ⟨hread, -⟩ := operands_account hiter hu
  obtain ⟨js, hread, hc, -⟩ := hread.given
  obtain ⟨is, hbody, -, -⟩ := hbody.given
  let call : Item := .silent ⟨index, (v.write index).1⟩
  have hcall : writes [call] = [⟨index, (v.write index).1⟩] := rfl
  have hcurrent : (v.write index).2.current index = (v.write index).1 := by
    rw [Versions.current_write, if_pos rfl, Versions.write_fst]
  refine ⟨⟨js ++ [call], loop_advances hread hbody hregistry hindex rfl, ?_, ?_⟩, ?_⟩
  · rw [writes_append, conditionsIn_append, hc, hcall]
    exact conditionsIn_eq_nil (List.forall_mem_singleton.mpr hindex)
  · refine List.forall_mem_singleton.mpr ⟨hindex, ?_⟩
    rw [writes_append, hcall]
    change (⟨index, (v.write index).2.current index⟩ : Reference) ∈ _
    rw [hcurrent]
    exact List.mem_append_right _ (List.mem_singleton_self _)
  · intro name output input hm
    cases List.mem_singleton.mp hm

end Lowering
end ProgramGraph
