import ProgramGraph.Proofs.Merges.Decided
import ProgramGraph.Proofs.Program

/-! Merges are complete wherever lowering comes to a conditional. -/
namespace ProgramGraph

open ProgramGraph.Graph Lowering LoweringState Versions

/-- Lowering a block comes to a statement, in the block or nested in it, in some state. -/
inductive Comes : List Stmt → LoweringState → Stmt → LoweringState → Prop
  | here {t rest s} : Comes (t :: rest) s t s
  | later {t rest s f s₁ u s'} (hmade : t.lower s = .ok (f, s₁)) (h : Comes rest s₁ u s') :
      Comes (t :: rest) s u s'
  | thenBranch {test body orelse line rest s tested s₁ u s'}
      (htest : Lowering.condition test line s = .ok (tested, s₁)) (h : Comes body s₁ u s') :
      Comes (.branch test body orelse line :: rest) s u s'
  | elseBranch {test body orelse line rest s tested s₁ thenPart s₂ u s'}
      (htest : Lowering.condition test line s = .ok (tested, s₁))
      (hthen : Stmt.lowerBlock body s₁ = .ok (thenPart, s₂))
      (h : Comes orelse (s₂.withLatest s₁.versions.latest) u s') :
      Comes (.branch test body orelse line :: rest) s u s'
  | loop {target iter body line rest s index os v range u s'}
      (htarget : loopIndex target line = .ok index)
      (hiter : iter.operands s.versions = .ok (os, v)) (hrange : rangeOf line os = .ok range)
      (h : Comes body (s.enterLoop index) u s') :
      Comes (.loop target iter body [] line :: rest) s u s'
  | definition {name parameters body line rest s r s₁ u s'}
      (hclaim : s.registry.claim? name = some r)
      (hparameters : parameters.forM (parameter line) (.enterFunction name r) = .ok ((), s₁))
      (h : Comes body s₁ u s') :
      Comes (.functionDef name parameters body line :: rest) s u s'

mutual

/-- Lowering comes to all that is nested in a statement that it succeeds on, and succeeds there. -/
theorem Stmt.comes_of_mem_nested (t : Stmt) {u : Stmt} {rest : List Stmt} {s s' : LoweringState}
    {f : Fragment} (h : t.lower s = .ok (f, s')) (hu : u ∈ t.nested) :
    ∃ s₁ g s₂, Comes (t :: rest) s u s₁ ∧ u.lower s₁ = .ok (g, s₂) := by
  by_cases hself : u = t
  · subst u
    exact ⟨s, f, s', .here, h⟩
  cases t with
  | functionDef name parameters body line =>
    have hu := (List.mem_cons.mp hu).resolve_left hself
    obtain ⟨r, s₁, inner, s₂, input, vars, hclaim, hparameters, hbody, -⟩ := functionDef_eq_ok h
    obtain ⟨s₃, g, s₄, hcomes, hlower⟩ := Stmt.comes_of_mem_nestedIn body hbody hu
    exact ⟨s₃, g, s₄, .definition hclaim hparameters hcomes, hlower⟩
  | branch test body orelse line =>
    have hu := (List.mem_cons.mp hu).resolve_left hself
    obtain ⟨tested, condition, s₁, thenPart, s₂, elsePart, s₃, decisions, htest, hthen, helse, -⟩ :=
      branch_eq_ok h
    rcases List.mem_append.mp hu with hu | hu
    · obtain ⟨s₄, g, s₅, hcomes, hlower⟩ := Stmt.comes_of_mem_nestedIn body hthen hu
      exact ⟨s₄, g, s₅, .thenBranch htest hcomes, hlower⟩
    · obtain ⟨s₄, g, s₅, hcomes, hlower⟩ := Stmt.comes_of_mem_nestedIn orelse helse hu
      exact ⟨s₄, g, s₅, .elseBranch htest hthen hcomes, hlower⟩
  | loop target iter body orelse line =>
    have hu := (List.mem_cons.mp hu).resolve_left hself
    obtain ⟨rfl, index, os, v, range, inner, s₂, htarget, hiter, hrange, hbody, -⟩ := loop_eq_ok h
    rcases List.mem_append.mp hu with hu | hu
    · obtain ⟨s₄, g, s₅, hcomes, hlower⟩ := Stmt.comes_of_mem_nestedIn body hbody hu
      exact ⟨s₄, g, s₅, .loop htarget hiter hrange hcomes, hlower⟩
    · cases hu
  | assign | annAssign | expr | unsupported => exact absurd (List.mem_singleton.mp hu) hself

theorem Stmt.comes_of_mem_nestedIn (block : List Stmt) {u : Stmt} {s s' : LoweringState}
    {f : Fragment} (h : Stmt.lowerBlock block s = .ok (f, s')) (hu : u ∈ Stmt.nestedIn block) :
    ∃ s₁ g s₂, Comes block s u s₁ ∧ u.lower s₁ = .ok (g, s₂) := by
  cases block with
  | nil => cases hu
  | cons t rest =>
    obtain ⟨first, s₁, hfirst, h⟩ := bind_eq_ok.mp h
    obtain ⟨others, s₂, hothers, -⟩ := bind_eq_ok.mp h
    rw [Stmt.nestedIn] at hu
    rcases List.mem_append.mp hu with hu | hu
    · exact Stmt.comes_of_mem_nested t hfirst hu
    · obtain ⟨s₃, g, s₄, hcomes, hlower⟩ := Stmt.comes_of_mem_nestedIn rest hothers hu
      exact ⟨s₃, g, s₄, .later hfirst hcomes, hlower⟩

end

/-- Moreover the conditions that are visible stand at their only version. -/
structure LoweringState.Settled (s : LoweringState) : Prop extends s.Regular where
  sole : ∀ x n, isConditionName x = true → s.versions.latest.get? x = some n → n = 0

namespace LoweringState
variable {s s' : LoweringState}

theorem Settled.of_keeps {xs : List String} (h : s.versions.Keeps xs s'.versions)
    (hs : s.Settled) (hregular : s'.Regular) : s'.Settled where
  toRegular := hregular
  sole x n hx hn := by
    rcases h.condition x hx with he | hzero
    · exact hs.sole x n hx (he ▸ hn)
    · exact (Option.some.inj (hzero.symm.trans hn)).symm

/-- A scope in which at most ordinary variables were read is settled. -/
theorem Settled.of_fresh {b : Int} {xs : List String} (ht : s.Tracked)
    (h : (Versions.fresh b).Reads xs s.versions) (hx : ∀ x ∈ xs, isConditionName x = false) :
    s.Settled where
  toRegular := (Starts.of_fresh ht h).regular
  sole x n hc hn := by
    have hm : x ∉ xs := fun hm => by
      rw [hx x hm] at hc
      cases hc
    rw [h.latest x hm, Versions.fresh, Table.get?_empty] at hn
    cases hn

/-- Behind a branch all is visible as before it. -/
theorem Settled.reset (hs : s.Settled)
    (hregular : (s'.withLatest s.versions.latest).Regular) :
    (s'.withLatest s.versions.latest).Settled :=
  ⟨hregular, fun x n => hs.sole x n⟩

end LoweringState

theorem Lowers.settled {block : List Stmt} {s s' : LoweringState} {L : Layout}
    (h : Lowers block s L s') (hp : Stmt.PlainBlock block) (hs : s.Settled) : s'.Settled :=
  .of_keeps (h.keeps hp hs.toTracked) hs ((h.accounts hp hs.toRegular).regular hs.toRegular)

theorem Lowering.condition_settled {test : Expr} {line : Option Int} {s s' : LoweringState}
    {f : Fragment} {output : Reference} (h : condition test line s = .ok ((f, output), s'))
    (hu : Plain test.uses) (hs : s.Settled) : s'.Settled :=
  .of_keeps (condition_keeps h hu) hs
    ((condition_account h fun u hm => (hu u hm).2).regular hs.toRegular)

/-- Wherever lowering comes, the state is settled if it is at the start. -/
theorem Comes.settled {block : List Stmt} {s s' : LoweringState} {t : Stmt}
    (h : Comes block s t s') (hp : Stmt.PlainBlock block) (hs : s.Settled) :
    Stmt.PlainBlock [t] ∧ s'.Settled := by
  induction h with
  | here => exact ⟨hp.head, hs⟩
  | later hmade _ ih =>
    obtain ⟨L, hL, -⟩ := Stmt.lowers_cons _ hmade .nil
    exact ih hp.cons.2 (hL.settled hp.head hs)
  | thenBranch htest _ ih =>
    obtain ⟨hu, hbody, -, -⟩ := hp.branch
    exact ih hbody (condition_settled htest hu hs)
  | elseBranch htest hthen _ ih =>
    obtain ⟨hu, hbody, horelse, -⟩ := hp.branch
    obtain ⟨T, hT, -⟩ := Stmt.lowers_of_lowerBlock _ hthen
    have hs₁ := condition_settled htest hu hs
    exact ih horelse (hs₁.reset ((hT.accounts hbody hs₁.toRegular).reset.regular hs₁.toRegular))
  | loop _ _ _ _ ih =>
    obtain ⟨-, -, hbody, -⟩ := hp.loop
    exact ih hbody (.of_fresh (enterLoop_tracked hs.named _) (.nil _) nofun)
  | definition _ hparameters _ ih =>
    obtain ⟨hn, hbody, -⟩ := hp.definition
    obtain ⟨ha, hreads⟩ := parameters_advance hparameters hn
    refine ih hbody (.of_fresh (ha.tracked (enterFunction_tracked _ _)) hreads ?_)
    exact List.forall_mem_map.mpr hn

/-- What the decisions behind two branches are, between the versions before the conditional and
those at the exits of the branches, and what they leave visible. `before` is all that stands in front
of them. -/
structure Stmt.MergesWritten (body orelse : List Stmt) (condition : Reference)
    (entry thenExit elseExit : Versions) (before decisions : Fragment) (s' : LoweringState) :
    Prop where
  decided : ∃ made : List (String × String), (made.map Prod.snd).Nodup ∧
    (∀ x, x ∈ made.map Prod.snd ↔ x ∈ writtenIn body ++ writtenIn orelse) ∧
    decisions = Fragment.decisions condition (candidates body orelse entry thenExit elseExit)
      s'.versions made
  /-- A decision gives a new version, above those from which it selects. -/
  above : ∀ x ∈ writtenIn body ++ writtenIn orelse,
    (candidates body orelse entry thenExit elseExit x).1 < s'.versions.current x ∧
      (candidates body orelse entry thenExit elseExit x).2 < s'.versions.current x
  fresh : ∀ x ∈ writtenIn body ++ writtenIn orelse,
    elseExit.upcoming x ≤ s'.versions.current x ∧
      ∀ r ∈ before.records, r.output? ≠ some ⟨x, s'.versions.current x⟩
  /-- A read sees what the decision gives until the variable is written again. -/
  read : ∀ x ∈ writtenIn body ++ writtenIn orelse, ∀ later g s'',
    lowerBlock later s' = .ok (g, s'') → OnlyLoads later → SparesConditions later →
    x ∉ writtenIn later →
    Versioning.read x s''.versions = .ok (⟨x, s'.versions.current x⟩, s''.versions)
  kept : ∀ x n, x ∉ writtenIn body ++ writtenIn orelse → entry.latest.get? x = some n →
    s'.versions.latest.get? x = some n

/-- Wherever the lowering of a block at the top comes to a conditional, whatever was registered before
the block, there is one decision behind the branches for each variable that a branch writes, and
there are no others. -/
theorem Stmt.merge_complete {block body orelse : List Stmt} {r : Registry} {test : Expr}
    {line : Option Int} {s s' : LoweringState} {f : Fragment}
    (hcomes : Comes block ⟨.top, r⟩ (.branch test body orelse line) s)
    (h : (Stmt.branch test body orelse line).lower s = .ok (f, s'))
    (hl : Stmt.OnlyLoads block) (hn : Stmt.SparesConditions block) :
    ∃ tested condition s₁ thenPart s₂ elsePart s₃ decisions,
      Lowering.condition test line s = .ok ((tested, condition), s₁) ∧
      Stmt.lowerBlock body s₁ = .ok (thenPart, s₂) ∧
      Stmt.lowerBlock orelse (s₂.withLatest s₁.versions.latest) = .ok (elsePart, s₃) ∧
      f = tested ++ thenPart ++ elsePart ++ decisions ∧
      Stmt.MergesWritten body orelse condition s.versions s₂.versions s₃.versions
        (tested ++ thenPart ++ elsePart) decisions s' := by
  have htop : LoweringState.Settled ⟨.top, r⟩ := .of_fresh ⟨nofun, nofun⟩ (.nil _) nofun
  obtain ⟨hp, hs⟩ := hcomes.settled (.of_loads hl hn) htop
  obtain ⟨hu, hpT, hpE, -⟩ := hp.branch
  obtain ⟨tested, condition, s₁, thenPart, s₂, elsePart, s₃, decisions, htest, hthen, helse,
    hmerge, rfl⟩ := branch_eq_ok h
  obtain ⟨T, hT, rfl⟩ := Stmt.lowers_of_lowerBlock body hthen
  obtain ⟨E, hE, rfl⟩ := Stmt.lowers_of_lowerBlock orelse helse
  refine ⟨tested, condition, s₁, _, s₂, _, s₃, decisions, htest, hthen, helse, rfl, ?_⟩
  have hs₁ : s₁.Settled := condition_settled htest hu hs
  have hbranches : Branches body orelse s₁ s₂ s₃ T E := ⟨hT, hE, hpT, hpE, hs₁.toRegular⟩
  have hbranch : Lowers [.branch test body orelse line] s _ s' :=
    .branch htest hT hE hmerge .nil
  have hs' : s'.Settled := hbranch.settled hp hs
  have hwritten : Stmt.writtenIn [.branch test body orelse line] =
      Stmt.writtenIn body ++ Stmt.writtenIn orelse := List.append_nil _
  -- The test reads at most, so the branches start from the versions before the conditional.
  have hentry : ∀ x ∈ Stmt.writtenIn body ++ Stmt.writtenIn orelse,
      Stmt.candidates body orelse s₁.versions s₂.versions s₃.versions x =
        Stmt.candidates body orelse s.versions s₂.versions s₃.versions x := by
    intro x hx
    have hkeeps := condition_keeps htest hu
    unfold Stmt.candidates
    rw [hkeeps.current x (hbranches.ordinary hx) List.not_mem_nil]
  constructor
  case decided =>
    obtain ⟨made, hnd, hmem, hmade⟩ := hbranches.decisions_eq hmerge
    refine ⟨made, hnd, hmem, hmade.trans (Fragment.decisions_congr ?_ fun _ _ => rfl)⟩
    intro p hp
    exact hentry p.2 ((hmem p.2).mp (List.mem_map_of_mem hp))
  case above =>
    intro x hx
    rw [← hentry x hx]
    exact hbranches.candidates_lt_decision hmerge hx
  case fresh =>
    intro x hx
    have hle := hbranches.upcoming_le_decision hmerge hx
    refine ⟨hle, fun r hr ho => ?_⟩
    have hlt := hbranches.output_lt_upcoming htest hu hr ho (hbranches.ordinary hx)
    omega
  case read =>
    intro x hx later g s'' hlater hloads hnames hm
    obtain ⟨M, hM, -⟩ := Stmt.lowers_of_lowerBlock later hlater
    have hseen : s'.versions.Seen x := hbranch.covers.covered x (hwritten ▸ hx)
    have hkeeps := hM.keeps (.of_loads hloads hnames) hs'.toTracked
    rw [← hkeeps.current x (hbranches.ordinary hx) hm]
    exact Versioning.read_of_seen (hM.covers.seen x hseen)
  case kept =>
    intro x n hm hn
    have hextends := hbranch.covers.toExtends
    cases hx : isConditionName x with
    | false =>
      have hkeeps := hbranch.keeps hp hs.toTracked
      exact hkeeps.latest hextends hx (hwritten ▸ hm) hn
    | true =>
      -- A condition has no version but 0.
      have hseen : s'.versions.Seen x := hextends.seen x (by rw [Seen, hn]; rfl)
      obtain ⟨m, hm'⟩ := Option.isSome_iff_exists.mp hseen
      rw [hm', hs'.sole x m hx hm', hs.sole x n hx hn]

/-- Lowering comes to the conditional in the loop of the sample, and there is a decision on `b`
behind it. -/
theorem Stmt.merge_complete_sample :
    let test : Expr := .name "i" .load none
    let body : List Stmt := [.assign [.name "b" .store none] test none]
    ∃ s f s',
      Comes (Module.definitions Module.sample) ⟨.top, .empty⟩ (.branch test body [] none) s ∧
      (Stmt.branch test body [] none).lower s = .ok (f, s') ∧
      Stmt.OnlyLoads (Module.definitions Module.sample) ∧
      Stmt.SparesConditions (Module.definitions Module.sample) ∧ "b" ∈ Stmt.writtenIn body ∧
      ∃ (tested thenPart elsePart decisions : Fragment) (condition : Reference)
        (s₂ s₃ : LoweringState), f = tested ++ thenPart ++ elsePart ++ decisions ∧
        Stmt.MergesWritten body [] condition s.versions s₂.versions s₃.versions
          (tested ++ thenPart ++ elsePart) decisions s' := by
  intro test body
  have hl : Stmt.OnlyLoads (Module.definitions Module.sample) := by decide +kernel
  have hn : Stmt.SparesConditions (Module.definitions Module.sample) := by decide +kernel
  obtain ⟨g, t, hlower, -⟩ := exists_ok_of_any
    (m := Stmt.lowerBlock (Module.definitions Module.sample)) (s := ⟨.top, .empty⟩)
    (q := fun _ => true) (by decide +kernel)
  have hnested : .branch test body [] none ∈ Stmt.nestedIn (Module.definitions Module.sample) :=
    List.mem_of_getElem? (i := 5) rfl
  obtain ⟨s, f, s', hcomes, h⟩ := Stmt.comes_of_mem_nestedIn _ hlower hnested
  obtain ⟨tested, condition, s₁, thenPart, s₂, elsePart, s₃, decisions, -, -, -, hf, hmerges⟩ :=
    Stmt.merge_complete hcomes h hl hn
  exact ⟨s, f, s', hcomes, h, hl, hn, List.mem_singleton_self _, tested, thenPart, elsePart,
    decisions, condition, s₂, s₃, hf, hmerges⟩

end ProgramGraph
