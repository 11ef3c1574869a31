import ProgramGraph.Proofs.Merges.Kept

/-! What the decisions behind two branches are: one for each variable that a branch writes. -/
namespace ProgramGraph

open ProgramGraph.Graph Lowering LoweringState Versions

/-- What a decision selects from: its condition and two versions of its variable. -/
def Fragment.alternatives (condition : Reference) (between : String → Int × Int) (x : String) :
    List Reference :=
  [condition, ⟨x, (between x).1⟩, ⟨x, (between x).2⟩]

/-- Decisions on some variables, each given behind the name of its decision: a function, and a
record that gives the version at which the variable stands in the end. -/
def Fragment.decisions (condition : Reference) (between : String → Int × Int) (exit : Versions)
    (made : List (String × String)) : Fragment where
  functions := made.map fun p =>
    .decision p.1 p.2 ((alternatives condition between p.2).map Source.versioned)
  records := made.map fun p =>
    .value p.1 ⟨p.2, exit.current p.2⟩ ((alternatives condition between p.2).map Input.ref)

namespace Fragment
variable {condition : Reference} {between between' : String → Int × Int} {v v' : Versions}
  {made made' : List (String × String)}

theorem decisions_append : decisions condition between v (made ++ made') =
    decisions condition between v made ++ decisions condition between v made' := by
  unfold decisions
  rw [List.map_append, List.map_append]
  rfl

theorem decisions_congr (hbetween : ∀ p ∈ made, between p.2 = between' p.2)
    (hexit : ∀ p ∈ made, v.current p.2 = v'.current p.2) :
    decisions condition between v made = decisions condition between' v' made := by
  unfold decisions alternatives
  congr 1
  · exact List.map_congr_left fun p hp => by rw [hbetween p hp]
  · exact List.map_congr_left fun p hp => by rw [hbetween p hp, hexit p hp]

/-- A variable that is decided on is given at the version at which it stands in the end. -/
theorem exists_decision_record {x : String} (hx : x ∈ made.map Prod.snd) :
    ∃ r ∈ (decisions condition between v made).records, r.output? = some ⟨x, v.current x⟩ := by
  obtain ⟨p, hp, rfl⟩ := List.mem_map.mp hx
  exact ⟨_, List.mem_map_of_mem hp, rfl⟩

end Fragment

/-- The versions between which a variable is decided on: those at the exits of both branches if both
write it, else the one at the exit of the branch that does and the one before the branches. -/
def Stmt.candidates (body orelse : List Stmt) (entry thenExit elseExit : Versions) (x : String) :
    Int × Int :=
  if x ∈ Stmt.writtenIn body then
    (thenExit.current x,
      if x ∈ Stmt.writtenIn orelse then elseExit.current x else entry.current x)
  else (elseExit.current x, entry.current x)

namespace Lowering
variable {test : Reference} {start thenExit elseExit : Table Int} {between : String → Int × Int}
  {s s' : LoweringState} {f : Fragment}

/-- Whether there are candidates for a variable that is no condition. -/
def isDecided (conditions : List String) (start thenExit elseExit : Table Int) (baseline : Int)
    (x : String) : Bool :=
  !conditions.contains x &&
    (candidates? ((start.get? x).getD baseline) (thenExit.get? x) (elseExit.get? x)).isSome

theorem mergeVariable_made {x : String}
    (h : mergeVariable test start thenExit elseExit x s = .ok (f, s'))
    (hbetween : x ∉ s.scope.conditions → ∀ ab, candidates?
      ((start.get? x).getD s.versions.baseline) (thenExit.get? x) (elseExit.get? x) = some ab →
      between x = ab) :
    ∃ made : List (String × String), made.map Prod.snd = [x].filter
        (isDecided s.scope.conditions start thenExit elseExit s.versions.baseline) ∧
      f = Fragment.decisions test between s'.versions made := by
  rcases mergeVariable_eq_ok h with ⟨hc, rfl, -⟩ | ⟨hc, hnone, rfl, -⟩ | ⟨hc, a, b, hab, rfl, rfl⟩
  · refine ⟨[], ?_, rfl⟩
    simp [isDecided, hc]
  · refine ⟨[], ?_, rfl⟩
    simp [isDecided, hnone]
  · refine ⟨[((s.registry.next (s.owner ++ "__decision__" ++ x)).1, x)], ?_, ?_⟩
    · simp [isDecided, hc, hab]
    · have hcurrent : (s.versions.write x).2.current x = s.versions.upcoming x := by
        rw [current_write, if_pos rfl]
      change _ = Fragment.decisions test between (s.versions.write x).2 _
      simp only [Fragment.decisions, Fragment.alternatives, List.map_cons, List.map_nil,
        hbetween hc _ hab, hcurrent]

/-- The variables that are decided on stand at the versions that their decisions give. -/
theorem mergeVariables_made {names : List String}
    (h : mergeVariables test start thenExit elseExit names s = .ok (f, s')) (hnd : names.Nodup)
    (hbetween : ∀ x ∈ names, x ∉ s.scope.conditions → ∀ ab, candidates?
      ((start.get? x).getD s.versions.baseline) (thenExit.get? x) (elseExit.get? x) = some ab →
      between x = ab) :
    ∃ made : List (String × String), made.map Prod.snd = names.filter
        (isDecided s.scope.conditions start thenExit elseExit s.versions.baseline) ∧
      f = Fragment.decisions test between s'.versions made := by
  induction names generalizing s f with
  | nil =>
    obtain ⟨rfl, rfl⟩ := pure_eq_ok.mp h
    exact ⟨[], rfl, rfl⟩
  | cons x names ih =>
    obtain ⟨first, s₁, hf, h⟩ := bind_eq_ok.mp h
    obtain ⟨others, s₂, ho, h⟩ := bind_eq_ok.mp h
    obtain ⟨rfl, rfl⟩ := pure_eq_ok.mp h
    rw [List.nodup_cons] at hnd
    rw [List.forall_mem_cons] at hbetween
    have hmerged := mergeVariable_merges hf
    obtain ⟨made, hmade, rfl⟩ := mergeVariable_made hf hbetween.1
    rw [← hmerged.conditions, ← hmerged.baseline] at hbetween
    obtain ⟨made', hmade', rfl⟩ := ih ho hnd.2 hbetween.2
    rw [hmerged.conditions, hmerged.baseline] at hmade'
    refine ⟨made ++ made', ?_, ?_⟩
    · rw [List.map_append, hmade, hmade', ← List.filter_append]
      rfl
    · -- The merges behind it leave the variable at the version of its decision.
      have hcurrent : ∀ p ∈ made, s₁.versions.current p.2 = s₂.versions.current p.2 := by
        intro p hp
        have hx : p.2 ∈ [x] := List.mem_of_mem_filter (hmade ▸ List.mem_map_of_mem hp)
        obtain hpx := List.mem_singleton.mp hx
        exact ((mergeVariables_merges ho hnd.2).frame p.2 (hpx ▸ hnd.1)).symm
      rw [Fragment.decisions_congr (fun _ _ => rfl) hcurrent, ← Fragment.decisions_append]

end Lowering

theorem mem_writes_of_output {records : List Record} {r : Record} {q : Reference}
    (hr : r ∈ records) (hq : r.output? = some q) : q ∈ writes (records.map Record.item) :=
  List.mem_filterMap.mpr ⟨r.item, List.mem_map_of_mem hr, hq⟩

/-- Two branches, lowered one after the other from the same versions. -/
structure Branches (body orelse : List Stmt) (s₁ s₂ s₃ : LoweringState) (T E : Layout) : Prop where
  lowersThen : Lowers body s₁ T s₂
  lowersElse : Lowers orelse (s₂.withLatest s₁.versions.latest) E s₃
  plainThen : Stmt.PlainBlock body
  plainElse : Stmt.PlainBlock orelse
  regular : s₁.Regular

namespace Branches
variable {body orelse : List Stmt} {condition : Reference} {s₁ s₂ s₃ s₄ : LoweringState}
  {T E : Layout} {decisions : Fragment}

theorem accountsThen (h : Branches body orelse s₁ s₂ s₃ T E) :
    Accounts s₁ T.records (Stmt.writtenIn body) s₂ :=
  h.lowersThen.accounts h.plainThen h.regular

theorem regularElse (h : Branches body orelse s₁ s₂ s₃ T E) :
    (s₂.withLatest s₁.versions.latest).Regular :=
  h.accountsThen.reset.regular h.regular

theorem accountsElse (h : Branches body orelse s₁ s₂ s₃ T E) :
    Accounts (s₂.withLatest s₁.versions.latest) E.records (Stmt.writtenIn orelse) s₃ :=
  h.lowersElse.accounts h.plainElse h.regularElse

theorem advancesThen (h : Branches body orelse s₁ s₂ s₃ T E) : Advances s₁ T.items s₂ :=
  (h.lowersThen.follows h.plainThen h.regular.toTracked fun _ => False).toAdvances

theorem advancesElse (h : Branches body orelse s₁ s₂ s₃ T E) :
    Advances (s₂.withLatest s₁.versions.latest) E.items s₃ :=
  (h.lowersElse.follows h.plainElse h.regularElse.toTracked fun _ => False).toAdvances

theorem extendsElse (h : Branches body orelse s₁ s₂ s₃ T E) :
    s₁.versions.Extends s₃.versions := by
  have hback : s₁.versions.Extends (s₂.withLatest s₁.versions.latest).versions :=
    ⟨h.lowersThen.covers.baseline, fun _ hx => hx⟩
  exact hback.trans h.lowersElse.covers.toExtends

theorem ordinary (h : Branches body orelse s₁ s₂ s₃ T E) {x : String}
    (hx : x ∈ Stmt.writtenIn body ++ Stmt.writtenIn orelse) : isConditionName x = false := by
  rcases List.mem_append.mp hx with hm | hm
  · exact h.accountsThen.ordinary hm
  · exact h.accountsElse.ordinary hm

/-- Whether branches give candidates for a variable, and which, can be read off the program. -/
theorem candidates?_eq (h : Branches body orelse s₁ s₂ s₃ T E) {x : String}
    (hx : isConditionName x = false) :
    candidates? ((s₁.versions.latest.get? x).getD s₃.versions.baseline)
        (s₂.versions.latest.get? x) (s₃.versions.latest.get? x) =
      if x ∈ Stmt.writtenIn body ++ Stmt.writtenIn orelse then
        some (Stmt.candidates body orelse s₁.versions s₂.versions s₃.versions x)
      else none := by
  have hthen := h.lowersThen.covers.toExtends
  have hbody := h.lowersThen.mem_written_iff h.plainThen h.regular hx
  have horelse := h.lowersElse.mem_written_iff h.plainElse h.regularElse hx
  rw [current_withLatest hthen.baseline] at horelse
  have hentry : (s₁.versions.latest.get? x).getD s₃.versions.baseline = s₁.versions.current x := by
    rw [h.extendsElse.baseline, Versions.current]
  rw [hentry, candidates?_of_exits hthen h.extendsElse, Stmt.candidates]
  by_cases hthenExit : s₂.versions.current x = s₁.versions.current x
  · by_cases helseExit : s₃.versions.current x = s₁.versions.current x
    · simp [hbody, horelse, hthenExit, helseExit]
    · simp [hbody, horelse, hthenExit, helseExit]
  · by_cases helseExit : s₃.versions.current x = s₁.versions.current x
    · simp [hbody, horelse, hthenExit, helseExit]
    · simp [hbody, horelse, hthenExit, helseExit]

/-- Records in front of the decisions give versions below the next ones. -/
theorem output_lt_upcoming (h : Branches body orelse s₁ s₂ s₃ T E) {test : Expr}
    {line : Option Int} {s : LoweringState} {tested : Fragment}
    (htest : Lowering.condition test line s = .ok ((tested, condition), s₁))
    (hu : Plain test.uses) {r : Record}
    (hr : r ∈ (tested ++ T.fragment ++ E.fragment).records) {x : String} {n : Int}
    (ho : r.output? = some ⟨x, n⟩) (hx : isConditionName x = false) :
    n < s₃.versions.upcoming x := by
  have htested : Follows (fun _ => False) s (tested.records.map Record.item) s₁ :=
    (condition_follows htest hu).1
  have hall : Advances s (tested.records.map Record.item ++ T.items ++ E.items) s₃ :=
    (htested.toAdvances.append h.advancesThen.reset).append h.advancesElse
  have hthen := h.lowersThen.unfolds h.plainThen h.regular.toTracked fun _ => False
  have helse := h.lowersElse.unfolds h.plainElse h.regularElse.toTracked fun _ => False
  refine (hall.ascending.mem_ordinary hx ?_).2
  rw [writes_append, writes_append, List.mem_append, List.mem_append]
  rcases List.mem_append.mp hr with hr | hr
  · rcases List.mem_append.mp hr with hr | hr
    · exact .inl (.inl (mem_writes_of_output hr ho))
    · exact .inl (.inr (hthen.outputs_sublist.subset (List.mem_filterMap.mpr ⟨r, hr, ho⟩)))
  · exact .inr (helse.outputs_sublist.subset (List.mem_filterMap.mpr ⟨r, hr, ho⟩))

section
variable (h : Branches body orelse s₁ s₂ s₃ T E)
  (hmerge : mergeVariables condition s₁.versions.latest s₂.versions.latest s₃.versions.latest
    (distinct (s₁.versions.latest.keys ++ s₂.versions.latest.keys ++ s₃.versions.latest.keys))
    (s₃.withLatest s₁.versions.latest) = .ok (decisions, s₄))
include h hmerge

/-- There is one decision for each variable that a branch writes, and there are no others. -/
theorem decisions_eq :
    ∃ made : List (String × String), (made.map Prod.snd).Nodup ∧
      (∀ x, x ∈ made.map Prod.snd ↔ x ∈ Stmt.writtenIn body ++ Stmt.writtenIn orelse) ∧
      decisions = Fragment.decisions condition
        (Stmt.candidates body orelse s₁.versions s₂.versions s₃.versions) s₄.versions made := by
  let names := distinct
    (s₁.versions.latest.keys ++ s₂.versions.latest.keys ++ s₃.versions.latest.keys)
  have hnamed := (h.advancesElse.tracked h.regularElse.toTracked).named
  have hordinary : ∀ x ∈ names, x ∉ s₃.scope.conditions → isConditionName x = false :=
    fun x hx hc => Bool.eq_false_iff.mpr fun hn =>
      hc (conditions_of_merged h.regular.toTracked h.advancesThen h.advancesElse hx hn)
  have hbetween : ∀ x ∈ names, x ∉ s₃.scope.conditions → ∀ ab,
      candidates? ((s₁.versions.latest.get? x).getD s₃.versions.baseline)
        (s₂.versions.latest.get? x) (s₃.versions.latest.get? x) = some ab →
      Stmt.candidates body orelse s₁.versions s₂.versions s₃.versions x = ab := by
    intro x hx hc ab hab
    rw [h.candidates?_eq (hordinary x hx hc)] at hab
    split at hab
    · exact Option.some.inj hab
    · cases hab
  obtain ⟨made, hmade, rfl⟩ := mergeVariables_made hmerge (nodup_distinct _) hbetween
  refine ⟨made, ?_, fun x => ?_, rfl⟩
  · rw [hmade]
    exact (nodup_distinct _).filter _
  · rw [hmade, List.mem_filter]
    change x ∈ names ∧ isDecided s₃.scope.conditions _ _ _ s₃.versions.baseline x = true ↔ _
    rw [isDecided, Bool.and_eq_true]
    constructor
    · rintro ⟨hx, hc, hsome⟩
      have hn := hordinary x hx (by simpa using hc)
      rw [h.candidates?_eq hn] at hsome
      by_contra hm
      rw [if_neg hm] at hsome
      cases hsome
    · intro hx
      have hn := h.ordinary hx
      have hfree : x ∉ s₃.scope.conditions := fun hc => by
        rw [hnamed x hc] at hn
        cases hn
      refine ⟨?_, by simpa using hfree, ?_⟩
      · rw [mem_distinct, List.mem_append, List.mem_append, mem_keys_iff_seen, mem_keys_iff_seen,
          mem_keys_iff_seen]
        rcases List.mem_append.mp hx with hm | hm
        · exact .inl (.inr (h.lowersThen.covers.covered x hm))
        · exact .inr (h.lowersElse.covers.covered x hm)
      · rw [h.candidates?_eq hn, if_pos hx]
        rfl

/-- A decision gives a version that nothing in front of it was given. -/
theorem upcoming_le_decision {x : String}
    (hx : x ∈ Stmt.writtenIn body ++ Stmt.writtenIn orelse) :
    s₃.versions.upcoming x ≤ s₄.versions.current x := by
  have hfollow := decisions_follow h.regular.toTracked h.advancesThen h.advancesElse hmerge
  obtain ⟨made, -, hmem, rfl⟩ := h.decisions_eq hmerge
  obtain ⟨record, hrecord, houtput⟩ := Fragment.exists_decision_record ((hmem x).mpr hx)
  have hwrite := mem_writes_of_output hrecord houtput
  exact (hfollow.ascending.mem_ordinary (h.ordinary hx) hwrite).1

/-- A decision selects from lower versions. -/
theorem candidates_lt_decision {x : String}
    (hx : x ∈ Stmt.writtenIn body ++ Stmt.writtenIn orelse) :
    (Stmt.candidates body orelse s₁.versions s₂.versions s₃.versions x).1 <
        s₄.versions.current x ∧
      (Stmt.candidates body orelse s₁.versions s₂.versions s₃.versions x).2 <
        s₄.versions.current x := by
  have hn := h.ordinary hx
  have hentry : s₁.versions.current x < s₁.versions.upcoming x := h.regular.below x hn
  have hthenExit : s₂.versions.current x < s₂.versions.upcoming x :=
    (h.advancesThen.regular h.regular).below x hn
  have helseExit : s₃.versions.current x < s₃.versions.upcoming x :=
    (h.advancesElse.regular h.regularElse).below x hn
  have hthenLe : s₁.versions.upcoming x ≤ s₂.versions.upcoming x :=
    h.advancesThen.ascending.le (some x)
  have helseLe : s₂.versions.upcoming x ≤ s₃.versions.upcoming x :=
    h.advancesElse.ascending.le (some x)
  have hexit := h.upcoming_le_decision hmerge hx
  unfold Stmt.candidates
  constructor
  · split <;> dsimp only <;> omega
  · split
    · dsimp only
      split <;> omega
    · dsimp only
      omega

end
end Branches
end ProgramGraph
