import ProgramGraph.Proofs.Conditions.Accounted

/-! What a block leaves alone: no variable moves but those that it writes in its own scope. -/
namespace ProgramGraph

open ProgramGraph.Graph Lowering LoweringState

namespace Versions
variable {v v' v'' : Versions} {xs ys : List String}

/-- No ordinary variable moves but some. A condition is seen as before, or at its only version. -/
structure Keeps (v : Versions) (xs : List String) (v' : Versions) : Prop where
  baseline : v'.baseline = v.baseline
  current : ∀ x, isConditionName x = false → x ∉ xs → v'.current x = v.current x
  condition : ∀ x, isConditionName x = true →
    v'.latest.get? x = v.latest.get? x ∨ v'.latest.get? x = some 0

theorem Keeps.refl (v : Versions) : v.Keeps [] v := ⟨rfl, fun _ _ _ => rfl, fun _ _ => .inl rfl⟩

theorem Keeps.append (h : v.Keeps xs v') (h' : v'.Keeps ys v'') : v.Keeps (xs ++ ys) v'' where
  baseline := h'.baseline.trans h.baseline
  current x hx hm := by
    rw [List.mem_append, not_or] at hm
    rw [h'.current x hx hm.2, h.current x hx hm.1]
  condition x hx := by
    rcases h'.condition x hx with he | hzero
    · rw [he]
      exact h.condition x hx
    · exact .inr hzero

theorem Keeps.mono (h : v.Keeps xs v') (hsub : xs ⊆ ys) : v.Keeps ys v' where
  baseline := h.baseline
  current x hx hm := h.current x hx fun hmem => hm (hsub hmem)
  condition := h.condition

/-- The version of an ordinary variable that was seen and does not move is visible as before. -/
theorem Keeps.latest (h : v.Keeps xs v') (hseen : v.Extends v') {x : String} {n : Int}
    (hx : isConditionName x = false) (hm : x ∉ xs) (hn : v.latest.get? x = some n) :
    v'.latest.get? x = some n := by
  obtain ⟨m, hm'⟩ := Option.isSome_iff_exists.mp (hseen.seen x (by rw [Seen, hn]; rfl))
  have hcurrent := h.current x hx hm
  unfold Versions.current at hcurrent
  rw [hn, hm', Option.getD_some, Option.getD_some] at hcurrent
  rw [hm', hcurrent]

theorem Reads.keeps (h : v.Reads xs v') (hx : ∀ x ∈ xs, isConditionName x = false) :
    v.Keeps [] v' where
  baseline := h.baseline
  current x _ _ := h.current x
  condition x hc := by
    refine .inl (h.latest x fun hm => ?_)
    rw [hx x hm] at hc
    cases hc

theorem keeps_write (v : Versions) {x : String} (hx : isConditionName x = false) :
    v.Keeps [x] (v.write x).2 where
  baseline := rfl
  current y _ hy := by
    rw [current_write, if_neg (by simpa using hy)]
  condition y hy := by
    have hne : y ≠ x := by
      rintro rfl
      rw [hx] at hy
      cases hy
    exact .inl ((get?_latest_write v x y).trans (if_neg hne))

/-- A pin moves nothing if it shows a condition at its only version, or an ordinary variable where
it stands. -/
theorem keeps_pin (v : Versions) {x : String} {n : Int}
    (hcondition : isConditionName x = true → n = 0)
    (hcurrent : isConditionName x = false → n = v.current x) : v.Keeps [] (v.pin x n) where
  baseline := rfl
  current y hy _ := by
    rw [current_pin]
    split
    · subst y
      exact hcurrent hy
    · rfl
  condition y hy := by
    change (v.latest.insert x n).get? y = _ ∨ (v.latest.insert x n).get? y = some 0
    rw [Table.get?_insert]
    split
    · subst y
      rw [hcondition hy]
      exact .inr rfl
    · exact .inl rfl

theorem Extends.getD_current (h : v.Extends v') (x : String) :
    (v'.latest.get? x).getD (v.current x) = v'.current x := by
  unfold Versions.current
  cases hx' : v'.latest.get? x with
  | some n => rfl
  | none =>
    cases hx : v.latest.get? x with
    | some n =>
      have hseen : v'.Seen x := h.seen x (by rw [Seen, hx]; rfl)
      rw [Seen, hx'] at hseen
      cases hseen
    | none => exact h.baseline.symm

end Versions

open Versions

theorem LoweringState.current_withLatest {s s' : LoweringState}
    (h : s'.versions.baseline = s.versions.baseline) (x : String) :
    (s'.withLatest s.versions.latest).versions.current x = s.versions.current x := by
  change (s.versions.latest.get? x).getD s'.versions.baseline = _
  rw [h, Versions.current]

namespace Lowering
variable {s s' : LoweringState} {line : Option Int} {f : Fragment}

theorem Plain.keeps {us : List (String × Access)} {v v' : Versions} (hu : Plain us)
    (h : v.Reads (us.map Prod.fst) v') : v.Keeps [] v' := by
  refine h.keeps fun x hx => ?_
  obtain ⟨u, hm, rfl⟩ := List.mem_map.mp hx
  exact (hu u hm).2

theorem operands_keep {e : Expr} {v v' : Versions} {os : List Operand}
    (h : e.operands v = .ok (os, v')) (hu : Plain e.uses) : v.Keeps [] v' := by
  obtain ⟨hread, -⟩ := e.operands_reads h fun u hm => (hu u hm).1
  exact hu.keeps hread

theorem targets_keep {targets : List Expr} {v v' : Versions} {written : List Target}
    (h : targets.mapM Expr.target v = .ok (written, v'))
    (hn : ∀ x ∈ targets.filterMap Expr.targetName?, isConditionName x = false) :
    v.Keeps (targets.filterMap Expr.targetName?) v' := by
  induction targets generalizing v written with
  | nil =>
    obtain ⟨-, rfl⟩ := pure_eq_ok.mp h
    exact .refl _
  | cons e rest ih =>
    rw [List.mapM_cons] at h
    obtain ⟨t, w, he, h⟩ := bind_eq_ok.mp h
    obtain ⟨ts, w', hts, h⟩ := bind_eq_ok.mp h
    obtain ⟨-, rfl⟩ := pure_eq_ok.mp h
    obtain ⟨x, u, hx, -, hread, rfl, -⟩ := Expr.target_eq_ok he
    rw [Expr.targetNames_cons, hx, Option.toList_some, List.forall_mem_append] at hn
    rw [Expr.targetNames_cons, hx, Option.toList_some]
    have hordinary : isConditionName x = false := hn.1 x (List.mem_singleton_self x)
    have hseen : v.Keeps [] u := hread.keeps hn.1
    exact (hseen.append (keeps_write u hordinary)).append (ih hts hn.2)

theorem assignment_keeps {e : Expr} {targets : List Expr} {statement : Except Fault String}
    {operands : List Operand} {written : List Target} {v v' : Versions}
    (ho : e.operands s.versions = .ok (operands, v))
    (ht : targets.mapM Expr.target v = .ok (written, v'))
    (hf : assignTargets statement line operands written (s.withVersions v') = .ok (f, s'))
    (hu : Plain e.uses)
    (hn : ∀ x ∈ targets.filterMap Expr.targetName?, isConditionName x = false) :
    s.versions.Keeps (targets.filterMap Expr.targetName?) s'.versions := by
  obtain ⟨-, hversions, -⟩ := assignTargets_advances hf
  rw [hversions]
  exact (operands_keep ho hu).append (targets_keep ht hn)

theorem assign_keeps {targets : List Expr} {value : Expr}
    (h : assign targets value line s = .ok (f, s')) (hu : Plain value.uses)
    (hn : ∀ x ∈ targets.filterMap Expr.targetName?, isConditionName x = false) :
    s.versions.Keeps (targets.filterMap Expr.targetName?) s'.versions := by
  obtain ⟨operands, v, written, v', ho, ht, hf⟩ := assign_eq_ok h
  exact assignment_keeps ho ht hf hu hn

theorem annAssign_keeps {target typeExpr : Expr} {value : Option Expr}
    (h : annAssign target typeExpr value line s = .ok (f, s'))
    (hu : Plain (Expr.usesOfEach (initialValue? value).toList))
    (hn : ∀ x ∈ target.targetName?.toList, isConditionName x = false) :
    s.versions.Keeps (Stmt.annAssign target typeExpr value line).written s'.versions := by
  unfold Stmt.written
  obtain ⟨x, d, -, ⟨hnone, -, rfl⟩ | ⟨e, operands, v, written, v', he, ho, ht, hf⟩⟩ :=
    annAssign_eq_ok h
  · rw [hnone]
    exact .refl _
  · rw [he] at hu ⊢
    have hue : Plain e.uses := by simpa [Expr.usesOfEach] using hu
    have hnames : [target].filterMap Expr.targetName? = target.targetName?.toList := by
      rw [Expr.targetNames_cons, List.filterMap_nil, List.append_nil]
    rw [← hnames] at hn ⊢
    exact assignment_keeps (s := { s with scope := s.scope.declare x d }) ho
      (mapM_target_singleton ht) hf hue hn

theorem effect_keeps {value : Expr} (h : effect value line s = .ok (f, s'))
    (hu : Plain value.uses) : s.versions.Keeps [] s'.versions := by
  obtain ⟨func, args, keywords, own, callee, arguments, v, input, rfl, -, ho, -, rfl, rfl⟩ :=
    effect_eq_ok h
  obtain ⟨hread, -⟩ := Expr.operandsOfEach_reads args ho fun u hm => (hu u hm).1
  exact hu.keeps hread

theorem condition_keeps {test : Expr} {output : Reference}
    (h : condition test line s = .ok ((f, output), s')) (hu : Plain test.uses) :
    s.versions.Keeps [] s'.versions := by
  obtain ⟨operands, v, text, ho, -, rfl, rfl, rfl⟩ := condition_eq_ok h
  refine (operands_keep ho hu).append (keeps_pin v (fun _ => rfl) fun hn => ?_)
  rw [isConditionName_conditionName] at hn
  cases hn

section
variable {test : Reference} {start thenExit elseExit : Table Int} {xs : List String}

theorem mergeVariable_keeps {x : String}
    (h : mergeVariable test start thenExit elseExit x s = .ok (f, s'))
    (hnamed : ∀ y ∈ s.scope.conditions, isConditionName y = true)
    (hknown : isConditionName x = true → x ∈ s.scope.conditions)
    (hstart : s.versions.current x = (start.get? x).getD s.versions.baseline)
    (hmoved : isConditionName x = false → (candidates? ((start.get? x).getD s.versions.baseline)
      (thenExit.get? x) (elseExit.get? x)).isSome → x ∈ xs) :
    s.versions.Keeps xs s'.versions := by
  have hfree : x ∉ s.scope.conditions → isConditionName x = false := fun hc =>
    Bool.eq_false_iff.mpr fun hn => hc (hknown hn)
  rcases mergeVariable_eq_ok h with ⟨hc, -, rfl⟩ | ⟨hc, -, -, rfl⟩ | ⟨hc, a, b, hab, -, rfl⟩
  · have hn := hnamed x hc
    refine (keeps_pin s.versions (fun _ => rfl) fun hordinary => ?_).mono (List.nil_subset xs)
    rw [hn] at hordinary
    cases hordinary
  · have hn := hfree hc
    split
    · refine (keeps_pin s.versions (fun hcondition => ?_) fun _ => ?_).mono (List.nil_subset xs)
      · rw [hn] at hcondition
        cases hcondition
      · exact hstart.symm
    · exact (Keeps.refl _).mono (List.nil_subset xs)
  · have hx : x ∈ xs := hmoved (hfree hc) (by rw [hab]; rfl)
    exact (keeps_write s.versions (hfree hc)).mono (by simpa using hx)

/-- Merges move no variable but those with candidates. -/
theorem mergeVariables_keep {names : List String}
    (h : mergeVariables test start thenExit elseExit names s = .ok (f, s')) (hnd : names.Nodup)
    (hnamed : ∀ y ∈ s.scope.conditions, isConditionName y = true)
    (hknown : ∀ x ∈ names, isConditionName x = true → x ∈ s.scope.conditions)
    (hstart : ∀ x ∈ names, s.versions.current x = (start.get? x).getD s.versions.baseline)
    (hmoved : ∀ x ∈ names, isConditionName x = false →
      (candidates? ((start.get? x).getD s.versions.baseline) (thenExit.get? x)
        (elseExit.get? x)).isSome → x ∈ xs) : s.versions.Keeps xs s'.versions := by
  induction names generalizing s f with
  | nil =>
    obtain ⟨-, rfl⟩ := pure_eq_ok.mp h
    exact (Keeps.refl _).mono (List.nil_subset xs)
  | cons x names ih =>
    obtain ⟨first, s₁, hf, h⟩ := bind_eq_ok.mp h
    obtain ⟨others, s₂, ho, h⟩ := bind_eq_ok.mp h
    obtain ⟨-, rfl⟩ := pure_eq_ok.mp h
    rw [List.nodup_cons] at hnd
    rw [List.forall_mem_cons] at hknown hstart hmoved
    have hfirst := mergeVariable_keeps hf hnamed hknown.1 hstart.1 hmoved.1
    have hmerged := mergeVariable_merges hf
    have hconditions := hmerged.conditions
    have hbaseline := hmerged.baseline
    have hcurrent : ∀ y ∈ names, s₁.versions.current y = s.versions.current y := by
      intro y hy
      refine hmerged.frame y fun hyx => hnd.1 ?_
      rwa [← List.mem_singleton.mp hyx]
    have hrest : s₁.versions.Keeps xs s₂.versions := by
      refine ih ho hnd.2 (hconditions ▸ hnamed) (hconditions ▸ hknown.2) ?_ (hbaseline ▸ hmoved.2)
      intro y hy
      rw [hcurrent y hy, hbaseline]
      exact hstart.2 y hy
    have hsub : xs ++ xs ⊆ xs := List.append_subset.mpr ⟨List.Subset.refl xs, List.Subset.refl xs⟩
    exact (hfirst.append hrest).mono hsub

end

/-- The first candidate is the version at the exit of a branch that moves the variable. -/
theorem candidates?_eq (entry : Int) (thenVersion elseVersion : Option Int) :
    candidates? entry thenVersion elseVersion =
      if thenVersion.getD entry ≠ entry then
        some (thenVersion.getD entry, elseVersion.getD entry)
      else if elseVersion.getD entry ≠ entry then some (elseVersion.getD entry, entry)
      else none := by
  have hfilter : ∀ o : Option Int, o.filter (· ≠ entry) =
      if o.getD entry ≠ entry then some (o.getD entry) else none := by
    intro o
    cases o with
    | none => simp
    | some n => by_cases h : n = entry <;> simp [h]
  unfold candidates?
  rw [hfilter, hfilter]
  by_cases hthen : thenVersion.getD entry = entry
  · by_cases helse : elseVersion.getD entry = entry
    · simp [hthen, helse]
    · simp [hthen, helse]
  · by_cases helse : elseVersion.getD entry = entry
    · simp [hthen, helse]
    · simp [hthen, helse]

/-- Candidates are the versions at which the branches leave a variable, if one of them moves it. -/
theorem candidates?_of_exits {entry thenExit elseExit : Versions} (hthen : entry.Extends thenExit)
    (helse : entry.Extends elseExit) (x : String) :
    candidates? (entry.current x) (thenExit.latest.get? x) (elseExit.latest.get? x) =
      if thenExit.current x ≠ entry.current x then some (thenExit.current x, elseExit.current x)
      else if elseExit.current x ≠ entry.current x then some (elseExit.current x, entry.current x)
      else none := by
  rw [candidates?_eq, hthen.getD_current, helse.getD_current]

/-- Behind two branches no variable has moved but those that one of them writes. -/
theorem branch_keeps {condition : Reference} {s₁ s₂ s₃ s₄ : LoweringState} {is js : List Item}
    {xs ys : List String} {decisions : Fragment} (ht : s₁.Tracked)
    (hthen : Advances s₁ is s₂) (helse : Advances (s₂.withLatest s₁.versions.latest) js s₃)
    (hT : s₁.versions.Keeps xs s₂.versions)
    (hE : (s₂.withLatest s₁.versions.latest).versions.Keeps ys s₃.versions)
    (hmerge : mergeVariables condition s₁.versions.latest s₂.versions.latest s₃.versions.latest
      (distinct (s₁.versions.latest.keys ++ s₂.versions.latest.keys ++ s₃.versions.latest.keys))
      (s₃.withLatest s₁.versions.latest) = .ok (decisions, s₄)) :
    s₁.versions.Keeps (xs ++ ys) s₄.versions := by
  have hboth : Advances s₁ (is ++ js) s₃ := hthen.reset.append helse
  have hreset : s₁.versions.Keeps [] (s₃.withLatest s₁.versions.latest).versions :=
    ⟨hboth.baseline, fun x _ _ => current_withLatest hboth.baseline x, fun _ _ => .inl rfl⟩
  refine hreset.append (mergeVariables_keep hmerge (nodup_distinct _) (hboth.tracked ht).named
    (fun x hx hc => conditions_of_merged ht hthen helse hx hc) (fun _ _ => rfl) ?_)
  intro x _ hx hsome
  by_contra hm
  have hm : x ∉ xs ∧ x ∉ ys := not_or.mp fun h => hm (List.mem_append.mpr h)
  have hthenExit : s₂.versions.current x = s₁.versions.current x := hT.current x hx hm.1
  have helseExit : s₃.versions.current x = s₁.versions.current x :=
    (hE.current x hx hm.2).trans (current_withLatest hthen.baseline x)
  have hnone := candidates?_of_exits ⟨hthen.baseline, hthen.seen⟩ ⟨hboth.baseline, hboth.seen⟩ x
  have hentry : (s₁.versions.latest.get? x).getD s₃.versions.baseline = s₁.versions.current x := by
    rw [hboth.baseline, Versions.current]
  change (candidates? ((s₁.versions.latest.get? x).getD s₃.versions.baseline) _ _).isSome at hsome
  rw [hentry, hnone] at hsome
  simp [hthenExit, helseExit] at hsome

/-- The index of a loop is all that moves around it. -/
theorem loop_keeps {iter : Expr} {index : String} {os : List Operand} {v : Versions}
    (hiter : iter.operands s.versions = .ok (os, v)) (hu : Plain iter.uses)
    (hindex : isConditionName index = false) :
    s.versions.Keeps [index] (v.write index).2 :=
  (operands_keep hiter hu).append (keeps_write v hindex)

end Lowering

namespace Stmt.Respects
variable {P : String × Access → Prop} {t : Stmt} {rest : List Stmt}

theorem head (h : Respects P (t :: rest)) : Respects P [t] := by
  obtain ⟨⟨hu, hd⟩, -⟩ := h.cons
  constructor
  · rw [Stmt.usesOf, Stmt.usesOf, List.append_nil]
    exact hu
  · rw [Stmt.definedIn, Stmt.definedIn, List.append_nil]
    exact hd

theorem imp {Q : String × Access → Prop} {block : List Stmt} (h : Respects P block)
    (himp : ∀ u, P u → Q u) : Respects Q block :=
  ⟨fun u hu => himp u (h.uses u hu), h.defined⟩

end Stmt.Respects

namespace Lowers
variable {block : List Stmt} {s s' : LoweringState} {L : Layout}

theorem follows (h : Lowers block s L s') (hp : Stmt.PlainBlock block) (ht : s.Tracked)
    (known : Reference → Prop) : Follows known s L.items s' :=
  (h.unfolds hp ht known).follows

theorem tracked (h : Lowers block s L s') (hp : Stmt.PlainBlock block) (ht : s.Tracked) :
    s'.Tracked :=
  (h.follows hp ht fun _ => False).tracked ht

/-- A block moves no variable but those that it writes in its own scope. -/
theorem keeps (h : Lowers block s L s') (hp : Stmt.PlainBlock block) (ht : s.Tracked) :
    s.versions.Keeps (Stmt.writtenIn block) s'.versions := by
  induction h with
  | nil => exact .refl _
  | assign hmade _ ih =>
    obtain ⟨⟨hu, hd⟩, hrest⟩ := hp.cons
    have ht₁ := (Lowers.assign hmade .nil).tracked hp.head ht
    exact (assign_keeps hmade hu hd).append (ih hrest ht₁)
  | annAssign hmade _ ih =>
    obtain ⟨⟨hu, hd⟩, hrest⟩ := hp.cons
    have ht₁ := (Lowers.annAssign hmade .nil).tracked hp.head ht
    exact (annAssign_keeps hmade hu hd).append (ih hrest ht₁)
  | effect hmade _ ih =>
    obtain ⟨⟨hu, -⟩, hrest⟩ := hp.cons
    have ht₁ := (Lowers.effect hmade .nil).tracked hp.head ht
    exact (effect_keeps hmade hu).append (ih hrest ht₁)
  | @branch test body orelse line rest s s₁ s₂ s₃ s₄ s₅ tested condition T E decisions L
      htest hthen helse hmerge _ ihT ihE ih =>
    obtain ⟨hu, hbody, horelse, hrest⟩ := hp.branch
    have ht₄ := (Lowers.branch htest hthen helse hmerge .nil).tracked hp.head ht
    have htested : Follows (fun _ => False) s _ s₁ := (condition_follows htest hu).1
    have ht₁ := htested.tracked ht
    have hT := (hthen.follows hbody ht₁ fun _ => False).toAdvances
    have htElse := hT.reset.tracked ht₁
    have hE := (helse.follows horelse htElse fun _ => False).toAdvances
    have hbranch := branch_keeps ht₁ hT hE (ihT hbody ht₁) (ihE horelse htElse) hmerge
    exact ((condition_keeps htest hu).append hbranch).append (ih hrest ht₄)
  | @loop target iter body line rest s s₂ s₃ v index os range B L
      htarget hiter hrange hbody _ _ ih =>
    obtain ⟨hu, hn, -, hrest⟩ := hp.loop
    have ht₁ := (Lowers.loop htarget hiter hrange hbody .nil).tracked hp.head ht
    have hindex := loopIndex_ordinary htarget hn
    rw [Stmt.writtenIn, Stmt.written, targetName?_of_loopIndex htarget, Option.toList_some]
    exact (loop_keeps hiter hu hindex).append (ih hrest ht₁)
  | definition hclaim hparameters hbody hinput hvars _ _ ih =>
    obtain ⟨-, -, hrest⟩ := hp.definition
    have ht₁ := (Lowers.definition hclaim hparameters hbody hinput hvars .nil).tracked hp.head ht
    exact ih hrest ht₁

theorem accounts (h : Lowers block s L s') (hp : Stmt.PlainBlock block) (hs : s.Regular) :
    Accounts s L.records (Stmt.writtenIn block) s' :=
  (h.accounted (hp.imp fun _ hu => hu.2) hs).accounts

/-- A variable has moved if and only if the block writes it. -/
theorem mem_written_iff (h : Lowers block s L s') (hp : Stmt.PlainBlock block) (hs : s.Regular)
    {x : String} (hx : isConditionName x = false) :
    x ∈ Stmt.writtenIn block ↔ s'.versions.current x ≠ s.versions.current x := by
  constructor
  · intro hm
    have hlt := (h.accounts hp hs).moved hs hm
    omega
  · intro hne
    by_contra hm
    exact hne ((h.keeps hp hs.toTracked).current x hx hm)

end Lowers
end ProgramGraph
