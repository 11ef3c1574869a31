import ProgramGraph.Proofs.Meaning.Simulation

/-! Meaning is preserved: decisions take what the selected branch leaves behind, and so every block
does to versions what it does to a store. -/
namespace ProgramGraph

open ProgramGraph.Graph Lowering

variable {V : Type} {I : Interpretation V} {σ : String → V} {ρ : Reference → V}

namespace Lowering

/-- Without candidates neither branch has moved the variable. -/
theorem candidates?_eq_none {entry : Int} {thenVersion elseVersion : Option Int}
    (h : candidates? entry thenVersion elseVersion = none) :
    thenVersion.getD entry = entry ∧ elseVersion.getD entry = entry := by
  have hfilter : ∀ {o : Option Int}, o.filter (· ≠ entry) = none → o.getD entry = entry := by
    intro o ho
    cases o with
    | none => rfl
    | some n => simpa [Option.filter_eq_none_iff] using ho
  unfold candidates? at h
  split at h
  · cases h
  · cases h
  · cases h
  · rename_i ha hb
    exact ⟨hfilter ha, hfilter hb⟩

/-- What either branch leaves behind is among the candidates. -/
theorem getD_of_candidates? {entry a b : Int} {thenVersion elseVersion : Option Int}
    (h : candidates? entry thenVersion elseVersion = some (a, b)) :
    (thenVersion.getD entry = a ∨ thenVersion.getD entry = b) ∧
      (elseVersion.getD entry = a ∨ elseVersion.getD entry = b) := by
  have hsome : ∀ {o : Option Int} {n : Int}, o.filter (· ≠ entry) = some n → o.getD entry = n := by
    intro o n ho
    obtain ⟨rfl, -⟩ := Option.filter_eq_some_iff.mp ho
    rfl
  have hnone : ∀ {o : Option Int}, o.filter (· ≠ entry) = none → o.getD entry = entry := by
    intro o ho
    cases o with
    | none => rfl
    | some n => simpa [Option.filter_eq_none_iff] using ho
  unfold candidates? at h
  split at h
  · rename_i ha hb
    obtain ⟨rfl, rfl⟩ := Prod.mk.inj (Option.some.inj h)
    exact ⟨.inl (hsome ha), .inr (hsome hb)⟩
  · rename_i ha hb
    obtain ⟨rfl, rfl⟩ := Prod.mk.inj (Option.some.inj h)
    exact ⟨.inl (hsome ha), .inr (hnone hb)⟩
  · rename_i ha hb
    obtain ⟨rfl, rfl⟩ := Prod.mk.inj (Option.some.inj h)
    exact ⟨.inr (hnone ha), .inl (hsome hb)⟩
  · cases h

/-- A branch shows a variable at its entry version or at one of its own. -/
def Leaves (start : Table Int) (baseline : Int) (exit : Versions) (x : String) : Prop :=
  exit.current x = (exit.latest.get? x).getD ((start.get? x).getD baseline)

theorem leaves_of_seen {start : Table Int} {exit : Versions} {x : String}
    (h : (start.get? x).isSome → (exit.latest.get? x).isSome) :
    Leaves start exit.baseline exit x := by
  unfold Leaves Versions.current
  cases hx : exit.latest.get? x with
  | some n => rfl
  | none =>
    cases hs : start.get? x with
    | some n => simp [hs, hx] at h
    | none => rfl

/-- After its decision a variable holds what the selected branch left it with. Nothing else
changes. -/
theorem mergeVariable_represents {test : Reference} {start : Table Int} {thenExit elseExit : Versions}
    {x : String} {s s' : LoweringState} {f : Fragment}
    (h : mergeVariable test start thenExit.latest elseExit.latest x s = .ok (f, s'))
    (hnamed : ∀ y ∈ s.scope.conditions, isConditionName y = true)
    (hx : isConditionName x = true → x ∈ s.scope.conditions)
    (hstart : s.versions.latest.get? x = start.get? x)
    (hthen : Leaves start s.versions.baseline thenExit x)
    (helse : Leaves start s.versions.baseline elseExit x) :
    let exit := if I.truth (ρ test) then thenExit else elseExit
    let ρ' := run I (f.records.map (·, .decision thenExit elseExit)) ρ
    (isConditionName x = false → ρ' ⟨x, s'.versions.current x⟩ = ρ ⟨x, exit.current x⟩) ∧
      (∀ q, (isConditionName x = false → q.name ≠ x) → ρ' q = ρ q) ∧
      (∀ y, y ≠ x → s'.versions.latest.get? y = s.versions.latest.get? y) ∧
      s'.versions.baseline = s.versions.baseline ∧ s'.scope.conditions = s.scope.conditions := by
  intro exit ρ'
  have hpin : ∀ n y, y ≠ x → (s.versions.pin x n).latest.get? y = s.versions.latest.get? y :=
    fun n y hy => (Table.get?_insert _ _ _ _).trans (if_neg hy)
  have hentry : s.versions.current x = (start.get? x).getD s.versions.baseline := by
    unfold Versions.current
    rw [hstart]
  rcases mergeVariable_eq_ok h with ⟨hc, rfl, rfl⟩ | ⟨hc, hnone, rfl, rfl⟩ | ⟨hc, a, b, hab, rfl, rfl⟩
  · refine ⟨fun hn => ?_, fun _ _ => rfl, hpin 0, rfl, rfl⟩
    rw [hnamed x hc] at hn
    cases hn
  · obtain ⟨hthenEntry, helseEntry⟩ := candidates?_eq_none hnone
    have hexit : exit.current x = (start.get? x).getD s.versions.baseline := by
      change (if I.truth (ρ test) then thenExit else elseExit).current x = _
      split
      · exact hthen.trans hthenEntry
      · exact helse.trans helseEntry
    split
    · refine ⟨fun _ => ?_, fun _ _ => rfl, hpin _, rfl, rfl⟩
      have hcurrent := (Versions.current_pin s.versions x x
        ((start.get? x).getD s.versions.baseline)).trans (if_pos rfl)
      change ρ ⟨x, (s.versions.pin x _).current x⟩ = _
      rw [hcurrent, hexit]
    · refine ⟨fun _ => ?_, fun _ _ => rfl, fun _ _ => rfl, rfl, rfl⟩
      change ρ ⟨x, s.versions.current x⟩ = _
      rw [hentry, hexit]
  · have hn : isConditionName x = false := by
      cases hcond : isConditionName x with
      | true => exact absurd (hx hcond) hc
      | false => rfl
    obtain ⟨hthenMem, helseMem⟩ := getD_of_candidates? hab
    have hmem : exit.current x = a ∨ exit.current x = b := by
      change (if I.truth (ρ test) then thenExit else elseExit).current x = a ∨
        (if I.truth (ρ test) then thenExit else elseExit).current x = b
      split
      · exact hthenMem.imp hthen.trans hthen.trans
      · exact helseMem.imp helse.trans helse.trans
    refine ⟨fun _ => ?_, fun q hq => ?_, fun y hy => ?_, rfl, rfl⟩
    · have hcurrent := (Versions.current_write s.versions x x).trans (if_pos rfl)
      change Function.update ρ _ _ ⟨x, (s.versions.write x).2.current x⟩ = _
      rw [hcurrent, Function.update_self]
      simp only [Meaning.value, List.map_cons, List.map_nil]
      refine if_pos ?_
      exact hmem.imp (congrArg (Reference.mk x)) (congrArg (Reference.mk x))
    · exact Function.update_of_ne (fun he => hq hn (congrArg Reference.name he)) _ _
    · exact (Versions.get?_latest_write _ _ _).trans (if_neg hy)

theorem mergeVariables_represents {test : Reference} {start : Table Int}
    {thenExit elseExit : Versions} {names : List String} {s s' : LoweringState} {f : Fragment}
    (h : mergeVariables test start thenExit.latest elseExit.latest names s = .ok (f, s'))
    (hnamed : ∀ y ∈ s.scope.conditions, isConditionName y = true)
    (htest : isConditionName test.name = true) (hnd : names.Nodup)
    (hx : ∀ x ∈ names, isConditionName x = true → x ∈ s.scope.conditions)
    (hstart : ∀ x ∈ names, s.versions.latest.get? x = start.get? x)
    (hthen : ∀ x, Leaves start s.versions.baseline thenExit x)
    (helse : ∀ x, Leaves start s.versions.baseline elseExit x) :
    let exit := if I.truth (ρ test) then thenExit else elseExit
    let ρ' := run I (f.records.map (·, .decision thenExit elseExit)) ρ
    ∀ y, isConditionName y = false →
      (y ∈ names → ρ' ⟨y, s'.versions.current y⟩ = ρ ⟨y, exit.current y⟩) ∧
      (y ∉ names → s'.versions.current y = s.versions.current y ∧ ∀ k, ρ' ⟨y, k⟩ = ρ ⟨y, k⟩) := by
  induction names generalizing s f ρ with
  | nil =>
    obtain ⟨rfl, rfl⟩ := pure_eq_ok.mp h
    exact fun y _ => ⟨nofun, fun _ => ⟨rfl, fun _ => rfl⟩⟩
  | cons x names ih =>
    obtain ⟨first, s₁, hf, h⟩ := bind_eq_ok.mp h
    obtain ⟨others, s₂, ho, h⟩ := bind_eq_ok.mp h
    obtain ⟨rfl, rfl⟩ := pure_eq_ok.mp h
    rw [List.nodup_cons] at hnd
    rw [List.forall_mem_cons] at hx hstart
    obtain ⟨hvalue, hframe, hlatest, hbaseline, hconditions⟩ :=
      mergeVariable_represents (I := I) (ρ := ρ) hf hnamed hx.1 hstart.1 (hthen x) (helse x)
    let ρ₁ := run I (first.records.map (·, .decision thenExit elseExit)) ρ
    have hrest := ih (ρ := ρ₁) ho (hconditions ▸ hnamed) hnd.2 (hconditions ▸ hx.2)
      (fun y hy => (hlatest y fun he => hnd.1 (he ▸ hy)).trans (hstart.2 y hy))
      (hbaseline ▸ hthen) (hbaseline ▸ helse)
    have hsame : ρ₁ test = ρ test := by
      refine hframe test fun hn he => ?_
      rw [he, hn] at htest
      cases htest
    rw [hsame] at hrest
    intro exit ρ' y hy
    have hrun : ρ' = run I (others.records.map (·, .decision thenExit elseExit)) ρ₁ := by
      change run I ((first.records ++ others.records).map _) ρ = _
      rw [List.map_append, run_append]
    obtain ⟨hin, hout⟩ := hrest y hy
    rw [hrun]
    by_cases he : y = x
    · subst he
      refine ⟨fun _ => ?_, fun hm => absurd List.mem_cons_self hm⟩
      obtain ⟨hcurrent, hkeep⟩ := hout hnd.1
      rw [hcurrent, hkeep]
      exact hvalue hy
    · have hframe' : ∀ k, ρ₁ ⟨y, k⟩ = ρ ⟨y, k⟩ := fun k => hframe ⟨y, k⟩ fun _ => he
      refine ⟨fun hm => ?_, fun hm => ?_⟩
      · rw [hin ((List.mem_cons.mp hm).resolve_left he)]
        exact hframe' _
      · obtain ⟨hcurrent, hkeep⟩ := hout fun h => hm (List.mem_cons_of_mem _ h)
        refine ⟨hcurrent.trans ?_, fun k => (hkeep k).trans (hframe' k)⟩
        unfold Versions.current
        rw [hlatest y he, hbaseline]

end Lowering

/-- What was given out before a body keeps its value. -/
theorem Unfolds.run_of_past {known : Reference → Prop} {s s' : LoweringState} {L : Layout}
    (h : Unfolds known s L s') {q : Reference} (hq : q.stamp < s.clock q.counter) :
    run I L.steps ρ q = ρ q := by
  refine run_of_not_mem I fun hm => ?_
  rw [L.steps_records] at hm
  have hw := (h.follows.ascending.mem q (h.outputs_sublist.subset hm)).1
  omega

theorem represents_reset {known : Reference → Prop} {s s' : LoweringState} {L : Layout}
    (h : Unfolds known s L s') (hpast : s.Past fun _ => False) (hr : s.Represents ρ σ) :
    (s'.withLatest s.versions.latest).Represents (run I L.steps ρ) σ := by
  intro x hx
  have hcurrent : (s'.withLatest s.versions.latest).versions.current x = s.versions.current x := by
    change (s.versions.latest.get? x).getD s'.versions.baseline = _
    rw [h.follows.baseline]
    rfl
  rw [hcurrent, h.run_of_past (hpast _ (.inl ⟨hx, rfl⟩))]
  exact hr x hx

/-- A variable that is not merged was never seen, neither before the branches nor in them. -/
theorem current_of_not_merged {t₁ t₂ t₃ : Table Int} {y : String}
    (hy : y ∉ distinct (t₁.keys ++ t₂.keys ++ t₃.keys)) :
    t₁.get? y = none ∧ t₂.get? y = none ∧ t₃.get? y = none := by
  have hnone : ∀ {t : Table Int}, y ∉ t.keys → t.get? y = none := fun {t} h =>
    Option.eq_none_iff_forall_not_mem.mpr fun n hn => h (Table.mem_keys_iff.mpr ⟨n, hn⟩)
  rw [mem_distinct, List.mem_append, List.mem_append, not_or, not_or] at hy
  exact ⟨hnone hy.1.1, hnone hy.1.2, hnone hy.2⟩

/-- Both branches are run, and the decisions take what the selected one leaves behind. -/
theorem represents_branch {known : Reference → Prop} {condition : Reference}
    {s₁ s₂ s₃ s₄ : LoweringState} {T E : Layout} {decisions : Fragment} {τ τ' : String → V}
    (ht : s₁.Tracked) (hpast : s₁.Past fun r => r = condition)
    (hcondition : isConditionName condition.name = true)
    (hT : Unfolds known s₁ T s₂) (hE : Unfolds known (s₂.withLatest s₁.versions.latest) E s₃)
    (hmerge : mergeVariables condition s₁.versions.latest s₂.versions.latest s₃.versions.latest
      (distinct (s₁.versions.latest.keys ++ s₂.versions.latest.keys ++ s₃.versions.latest.keys))
      (s₃.withLatest s₁.versions.latest) = .ok (decisions, s₄))
    (hrT : s₂.Represents (run I T.steps ρ) τ)
    (hrE : s₃.Represents (run I E.steps (run I T.steps ρ)) τ') :
    s₄.Represents (run I (decisions.records.map (·, .decision s₂.versions s₃.versions))
      (run I E.steps (run I T.steps ρ))) (if I.truth (ρ condition) then τ else τ') := by
  have hadvT := hT.follows.toAdvances
  have hadvE := hE.follows.toAdvances
  have hboth := hadvT.reset.append hadvE
  have hkeep : run I E.steps (run I T.steps ρ) condition = ρ condition := by
    have hc := hpast condition (.inr rfl)
    rw [hE.run_of_past (Int.lt_of_lt_of_le hc (hadvT.ascending.le _)), hT.run_of_past hc]
  have hthenAt : ∀ y, isConditionName y = false →
      run I E.steps (run I T.steps ρ) ⟨y, s₂.versions.current y⟩ = τ y := by
    intro y hy
    have hlt := hpast.advance hadvT ⟨y, s₂.versions.current y⟩ (.inl ⟨hy, rfl⟩)
    rw [hE.run_of_past hlt]
    exact hrT y hy
  have hbaseT : s₂.versions.baseline = s₁.versions.baseline := hadvT.baseline
  have hbaseE : s₃.versions.baseline = s₁.versions.baseline := hboth.baseline
  have hleavesT : ∀ y, Leaves s₁.versions.latest s₃.versions.baseline s₂.versions y := fun y => by
    rw [hbaseE, ← hbaseT]
    exact leaves_of_seen (hadvT.seen y)
  have hleavesE : ∀ y, Leaves s₁.versions.latest s₃.versions.baseline s₃.versions y := fun y =>
    leaves_of_seen (hadvE.seen y)
  have hmerged := mergeVariables_represents (I := I) (ρ := run I E.steps (run I T.steps ρ)) hmerge
    (hboth.tracked ht).named hcondition (nodup_distinct _)
    (fun x hx hc => conditions_of_merged ht hadvT hadvE hx hc) (fun _ _ => rfl) hleavesT hleavesE
  rw [hkeep] at hmerged
  intro y hy
  obtain ⟨hin, hout⟩ := hmerged y hy
  have hvalue : run I (decisions.records.map (·, .decision s₂.versions s₃.versions))
      (run I E.steps (run I T.steps ρ)) ⟨y, s₄.versions.current y⟩ =
      run I E.steps (run I T.steps ρ)
        ⟨y, (if I.truth (ρ condition) then s₂.versions else s₃.versions).current y⟩ := by
    by_cases hm : y ∈ distinct (s₁.versions.latest.keys ++ s₂.versions.latest.keys ++
        s₃.versions.latest.keys)
    · exact hin hm
    · obtain ⟨hcurrent, hsame⟩ := hout hm
      obtain ⟨h₁, h₂, h₃⟩ := current_of_not_merged hm
      have hentry : (s₃.withLatest s₁.versions.latest).versions.current y = s₁.versions.baseline := by
        change (s₁.versions.latest.get? y).getD s₃.versions.baseline = _
        rw [h₁, hbaseE]
        rfl
      have hexit : (if I.truth (ρ condition) then s₂.versions else s₃.versions).current y =
          s₁.versions.baseline := by
        split
        · simp only [Versions.current, h₂, hbaseT, Option.getD_none]
        · simp only [Versions.current, h₃, hbaseE, Option.getD_none]
      rw [hsame, hcurrent, hentry, hexit]
  rw [hvalue]
  split
  · exact hthenAt y hy
  · exact hrE y hy

/-- Running the records of a block does to the current versions what the block does to a store. -/
theorem Lowers.represents {block : List Stmt} {s s' : LoweringState} {L : Layout}
    (h : Lowers block s L s') (hfree : Stmt.allLoopFree block = true)
    (hp : Stmt.PlainBlock block) (ht : s.Tracked) (hpast : s.Past fun _ => False)
    (hr : s.Represents ρ σ) :
    s'.Represents (run I L.steps ρ) (Stmt.execBlock I block σ) := by
  induction h generalizing ρ σ with
  | nil => exact hr
  | @assign targets value line rest s s₁ s₂ made L hmade hrest ih =>
    obtain ⟨⟨hu, hd⟩, hpr⟩ := hp.cons
    rw [Stmt.allLoopFree, Bool.and_eq_true] at hfree
    obtain ⟨target, rfl⟩ : ∃ target, targets = [target] := by
      match targets, hfree.1 with
      | [target], _ => exact ⟨target, rfl⟩
    have hfirst : Follows (fun _ => False) _ _ _ := assign_follows hmade hu hd
    rw [Layout.steps, run_append]
    exact ih hfree.2 hpr (hfirst.tracked ht) (hpast.advance hfirst.toAdvances)
      (represents_assign hmade hu hd hr)
  | annAssign hmade hrest ih =>
    obtain ⟨⟨hu, hd⟩, hpr⟩ := hp.cons
    rw [Stmt.allLoopFree, Bool.and_eq_true] at hfree
    have hfirst : Follows (fun _ => False) _ _ _ := annAssign_follows hmade hu hd
    rw [Layout.steps, run_append]
    exact ih hfree.2 hpr (hfirst.tracked ht) (hpast.advance hfirst.toAdvances)
      (represents_annAssign hmade hfree.1 hu hd hr)
  | effect hmade hrest ih =>
    obtain ⟨⟨hu, -⟩, hpr⟩ := hp.cons
    rw [Stmt.allLoopFree, Bool.and_eq_true] at hfree
    have hfirst : Follows (fun _ => False) _ _ _ := effect_follows hmade hu
    rw [Layout.steps, run_append]
    exact ih hfree.2 hpr (hfirst.tracked ht) (hpast.advance hfirst.toAdvances)
      (represents_effect hmade hu hr)
  | @branch test body orelse line rest s s₁ s₂ s₃ s₄ s₅ tested condition T E decisions L
      htest hthen helse hmerge hrest ihT ihE ih =>
    obtain ⟨hu, hpb, hpo, hpr⟩ := hp.branch
    simp only [Stmt.allLoopFree, Stmt.isLoopFree, Bool.and_eq_true] at hfree
    obtain ⟨htested, hw⟩ : Follows (fun _ => False) s (tested.records.map Record.item) s₁ ∧ _ :=
      condition_follows htest hu
    have ht₁ := htested.tracked ht
    have hp₁ := hpast.advance htested.toAdvances
    have hT := hthen.unfolds hpb ht₁ fun _ => False
    have hadvT := hT.follows.toAdvances.reset
    have hE := helse.unfolds hpo (hadvT.tracked ht₁) fun _ => False
    have hadvE := hE.follows.toAdvances
    have hd := decisions_follow ht₁ hT.follows.toAdvances hadvE hmerge
    have hadv := ((hadvT.append hadvE).reset).append hd.toAdvances
    obtain ⟨hr₁, hcondition, hcn⟩ := represents_condition (I := I) htest hu hr
    have hpc : s₁.Past fun r => r = condition := by
      rintro r (hv | rfl)
      · exact hp₁ r (.inl hv)
      · exact (htested.ascending.mem r (hw ▸ List.mem_singleton_self r)).2
    have hrT := ihT hfree.1.1 hpb ht₁ hp₁ hr₁
    have hreset := represents_reset (I := I) hT hp₁ hr₁
    have hrE := ihE hfree.1.2 hpo (hadvT.tracked ht₁) (hp₁.advance hadvT) hreset
    have hr₄ := represents_branch ht₁ hpc hcn hT hE hmerge hrT hrE
    rw [hcondition] at hr₄
    have hrest := ih hfree.2 hpr (hadv.tracked ht₁) (hp₁.advance hadv) hr₄
    simp only [Layout.steps, run_append, Stmt.execBlock, Stmt.exec]
    exact hrest
  | loop => cases hfree
  | definition => cases hfree

/-- In the scope of a function, after its parameters, a block without loops is lowered to records
that leave each variable, at the version that the next read sees, with the value that the block
gives it. Initial values stand at version 0. -/
theorem Stmt.lowerBlock_preserves_meaning {name : String} {registry : Registry}
    {parameters : List Parameter} {line : Option Int} {block : List Stmt} {s s' : LoweringState}
    {f : Fragment}
    (hs : parameters.forM (parameter line) ⟨.ofFunction name, registry⟩ = .ok ((), s))
    (h : Stmt.lowerBlock block s = .ok (f, s')) (hfree : Stmt.allLoopFree block = true)
    (hl : Stmt.OnlyLoads block) (hn : Stmt.SparesConditions block)
    (hparameters : ∀ p ∈ parameters, isConditionName p.name = false) :
    ∃ L, Lowers block s L s' ∧ L.fragment = f ∧ L.steps.map Prod.fst = f.records ∧
      ∀ {V : Type} (I : Interpretation V) (ρ : Reference → V) (x : String),
        isConditionName x = false →
          run I L.steps ρ ⟨x, s'.versions.current x⟩ =
            Stmt.execBlock I block (fun y => ρ ⟨y, 0⟩) x := by
  obtain ⟨L, hL, hf⟩ := Stmt.lowers_of_lowerBlock block h
  refine ⟨L, hL, hf, hf ▸ L.steps_records, fun I ρ x hx => ?_⟩
  obtain ⟨ha, hr⟩ := parameters_advance hs hparameters
  have ht : s.Tracked := ha.tracked (LoweringState.enterFunction_tracked name registry)
  have hstarts : s.Starts 0 := .of_fresh ht hr
  refine hL.represents hfree (.of_loads hl hn) ht hstarts.past (fun y _ => ?_) x hx
  rw [hstarts.current]

/-- A declaration and a conditional with another one in it, over the parameter `a`. -/
def Stmt.sampleBlock : List Stmt :=
  let read (x : String) : Expr := .name x .load none
  let write (x : String) : Expr := .name x .store none
  [.annAssign (write "b") (read "int") (some (read "a")) none,
    .branch (read "a")
      [.assign [write "b"] (.binary .add (read "b") (read "a") none) none,
        .branch (read "b") [.annAssign (write "c") (read "int") (some (read "b")) none] [] none]
      [.assign [write "b"] (.unary .neg (read "b") none) none] none]

theorem Stmt.lowerBlock_preserves_meaning_sample :
    ∃ s f s', [⟨"a", some (.name "int" .load none), none⟩].forM (parameter none)
        ⟨.ofFunction "f", .empty⟩ = .ok ((), s) ∧
      Stmt.lowerBlock Stmt.sampleBlock s = .ok (f, s') ∧
      ∃ L, Lowers Stmt.sampleBlock s L s' ∧ L.fragment = f ∧ L.steps.map Prod.fst = f.records ∧
        ∀ {V : Type} (I : Interpretation V) (ρ : Reference → V) (x : String),
          isConditionName x = false →
            run I L.steps ρ ⟨x, s'.versions.current x⟩ =
              Stmt.execBlock I Stmt.sampleBlock (fun y => ρ ⟨y, 0⟩) x := by
  let m : Lowering Fragment := do
    [⟨"a", some (.name "int" .load none), none⟩].forM (parameter none)
    Stmt.lowerBlock Stmt.sampleBlock
  have hok : (m ⟨.ofFunction "f", .empty⟩).isOk = true := by decide +kernel
  cases hm : m ⟨.ofFunction "f", .empty⟩ with
  | error fault => rw [hm] at hok; cases hok
  | ok result =>
    obtain ⟨f, s'⟩ := result
    obtain ⟨_, s, hs, h⟩ := bind_eq_ok.mp hm
    exact ⟨s, f, s', hs, h, Stmt.lowerBlock_preserves_meaning hs h (by decide +kernel)
      (by decide +kernel) (by decide +kernel) (by decide +kernel)⟩

end ProgramGraph
