import Mathlib.Data.List.Forall2
import ProgramGraph.Proofs.Follows.Basic

/-! Assignments and calls for their effect follow: operands are read, targets are written. -/
namespace ProgramGraph

open ProgramGraph.Graph

theorem Operand.mem_reads_inputs {r : Reference} {operands : List Operand}
    {carried : List Reference} :
    r ∈ (inputs operands carried).filterMap Input.reference? ↔
      r ∈ carried ∨ Input.ref r ∈ leavesOf operands := by
  simp only [List.mem_filterMap, inputs, mem_distinct, List.mem_append, List.mem_map]
  constructor
  · rintro ⟨i, (⟨q, hq, rfl⟩ | hi), hr⟩
    · obtain rfl := Option.some.inj hr
      exact .inl hq
    · cases i with
      | ref q =>
        obtain rfl := Option.some.inj hr
        exact .inr hi
      | function name => cases hr
  · rintro (hr | hr)
    · exact ⟨.ref r, .inl ⟨r, hr, rfl⟩, rfl⟩
    · exact ⟨.ref r, .inr hr, rfl⟩

/-- A name gets its next version; an element is written by reading the array and then giving it its
next version. -/
theorem Expr.target_eq_ok {e : Expr} {v v' : Versions} {t : Target}
    (h : e.target v = .ok (t, v')) :
    ∃ x w, e.targetName? = some x ∧ t.reference = ⟨x, v.upcoming x⟩ ∧ v.Reads [x] w ∧
      v' = (w.write x).2 ∧
      ((∃ access own, e = .name x access own) ∧ t.carried = none ∨
        (∃ access own index access' own', e = .subscript (.name x access own) index access' own' ∧
          index.isConstantIndex = true) ∧ t.carried = some ⟨x, v.current x⟩) := by
  cases e with
  | name id access own =>
    obtain ⟨r, w, hw, h⟩ := bind_eq_ok.mp h
    obtain ⟨rfl, rfl⟩ := Versioning.write_eq_ok.mp hw
    obtain ⟨rfl, rfl⟩ := pure_eq_ok.mp h
    exact ⟨id, v, rfl, rfl, ⟨Versions.Same.refl v, fun _ h => h, fun _ _ => rfl⟩, rfl,
      .inl ⟨⟨access, own, rfl⟩, rfl⟩⟩
  | subscript value index access own =>
    obtain ⟨x, _, h₁, h⟩ := bind_eq_ok.mp h
    obtain ⟨hx, rfl⟩ := Versioning.ofResult_eq_ok.mp h₁
    obtain ⟨_, w, hr, h⟩ := bind_eq_ok.mp h
    obtain ⟨rfl, rfl⟩ := Versioning.read_eq_ok.mp hr
    obtain ⟨_, _, hw, h⟩ := bind_eq_ok.mp h
    obtain ⟨rfl, rfl⟩ := Versioning.write_eq_ok.mp hw
    obtain ⟨rfl, rfl⟩ := pure_eq_ok.mp h
    obtain ⟨⟨access', own', rfl⟩, hi⟩ := subscriptBase_eq_ok hx
    refine ⟨x, _, rfl, ?_, .read v x, rfl,
      .inr ⟨⟨access', own', index, access, own, rfl, hi⟩, rfl⟩⟩
    rw [(Versions.same_read v x).upcoming]
  | _ => cases h

namespace Lowering

/-- Names in value position are read, and none is that of a condition. -/
def Plain (uses : List (String × Access)) : Prop :=
  ∀ u ∈ uses, u.2 = .load ∧ isConditionName u.1 = false

theorem operands_advance {e : Expr} {s : LoweringState} {v : Versions} {os : List Operand}
    (h : e.operands s.versions = .ok (os, v)) (hu : Plain e.uses) :
    Advances s [] (s.withVersions v) ∧ ∀ r, .ref r ∈ Operand.leavesOf os → s.Visible r := by
  obtain ⟨hv, hl⟩ := Expr.operands_reads e h fun u hm => (hu u hm).1
  refine ⟨.idle rfl rfl hv ?_ (.refl _), fun r hr => ⟨(hu _ (hl r hr).1).2, (hl r hr).2⟩⟩
  intro x hx
  obtain ⟨u, hm, rfl⟩ := List.mem_map.mp hx
  exact (hu u hm).2

/-- Making the function of a target touches no version. -/
theorem assignTarget_advances {statement : Except Fault String} {line : Option Int}
    {operands : List Operand} {t : Target} {s s' : LoweringState} {f : Fragment}
    (h : assignTarget statement line operands t s = .ok (f, s')) :
    Advances s [] s' ∧ s'.versions = s.versions ∧ ∃ name, f.records =
      [.value name t.reference (Operand.inputs operands t.carried.toList)] := by
  obtain ⟨payload, rfl, h | h⟩ := assignTarget_eq_ok h
  · obtain ⟨l, -, -, rfl⟩ := h
    obtain ⟨domains, hd⟩ := s.scope.declareDefault_eq t.reference.name l.domain
    rw [hd]
    exact ⟨.idle rfl rfl (.nil _) nofun (Registry.before_next _ _), rfl, _, rfl⟩
  · obtain ⟨body, -, -, rfl⟩ := h
    exact ⟨.idle rfl rfl (.nil _) nofun
      ((Registry.before_next _ _).trans (Registry.before_render _ _ _)), rfl, _, rfl⟩

/-- The record of a target: its version, computed from the operands and what it carries along. -/
def RecordOf (operands : List Operand) (r : Record) (t : Target) : Prop :=
  ∃ name, r = .value name t.reference (Operand.inputs operands t.carried.toList)

theorem assignTargets_advances {statement : Except Fault String} {line : Option Int}
    {operands : List Operand} {ts : List Target} {s s' : LoweringState} {f : Fragment}
    (h : assignTargets statement line operands ts s = .ok (f, s')) :
    Advances s [] s' ∧ s'.versions = s.versions ∧
      List.Forall₂ (RecordOf operands) f.records ts := by
  induction ts generalizing s f with
  | nil =>
    obtain ⟨rfl, rfl⟩ := pure_eq_ok.mp h
    exact ⟨.idle rfl rfl (.nil _) nofun (.refl _), rfl, .nil⟩
  | cons t ts ih =>
    obtain ⟨first, s₁, hf, h⟩ := bind_eq_ok.mp h
    obtain ⟨others, s₂, ho, h⟩ := bind_eq_ok.mp h
    obtain ⟨rfl, rfl⟩ := pure_eq_ok.mp h
    obtain ⟨ha, hv, name, hr⟩ := assignTarget_advances hf
    obtain ⟨ha', hv', hr'⟩ := ih ho
    refine ⟨ha.append ha', hv'.trans hv, ?_⟩
    change List.Forall₂ _ (first.records ++ others.records) _
    rw [hr]
    exact .cons ⟨name, rfl⟩ hr'

theorem target_follows {e : Expr} {s : LoweringState} {v' : Versions} {t : Target}
    {known : Reference → Prop} {i : Item} (h : e.target s.versions = .ok (t, v'))
    (he : ∀ x, e.targetName? = some x → isConditionName x = false)
    (hi : i.write = some t.reference) (hr : ∀ r ∈ i.reads, t.carried = some r ∨ known r) :
    Follows known s [i] (s.withVersions v') := by
  obtain ⟨x, w, hx, ht, hw, rfl, hc⟩ := Expr.target_eq_ok h
  have hn := he x hx
  have hread : Advances s [] (s.withVersions w) :=
    .idle rfl rfl hw (by simpa using hn) (.refl _)
  have hup : w.upcoming x = s.versions.upcoming x := hw.toSame.upcoming x
  refine ⟨hread.append (.write hn (by rw [hi, ht, ← hup]; rfl)),
    .of_known fun j hj r hrj => ?_⟩
  obtain rfl := List.mem_singleton.mp hj
  refine (hr r hrj).imp_left fun hcarried => ?_
  rcases hc with ⟨-, hc⟩ | ⟨-, hc⟩
  · rw [hc] at hcarried
    cases hcarried
  · rw [hc] at hcarried
    obtain rfl := Option.some.inj hcarried
    exact ⟨hn, rfl⟩

/-- All targets are written before the first record is made, and yet their records follow. -/
theorem targets_follow {targets : List Expr} {s : LoweringState} {v' : Versions}
    {written : List Target} {operands : List Operand} {records : List Record}
    (h : targets.mapM Expr.target s.versions = .ok (written, v'))
    (ht : ∀ x ∈ targets.filterMap Expr.targetName?, isConditionName x = false)
    (hr : List.Forall₂ (RecordOf operands) records written) :
    Follows (fun r => .ref r ∈ Operand.leavesOf operands) s (records.map Record.item)
      (s.withVersions v') := by
  induction targets generalizing s written records with
  | nil =>
    obtain ⟨rfl, rfl⟩ := pure_eq_ok.mp h
    cases hr
    exact .of_advances (.idle rfl rfl (.nil _) nofun (.refl _))
  | cons e targets ih =>
    rw [List.mapM_cons] at h
    obtain ⟨t, w, he, h⟩ := bind_eq_ok.mp h
    obtain ⟨ts, w', hts, h⟩ := bind_eq_ok.mp h
    obtain ⟨rfl, rfl⟩ := pure_eq_ok.mp h
    cases hr with
    | cons h₁ hr =>
      obtain ⟨name, rfl⟩ := h₁
      rw [List.filterMap_cons] at ht
      let first : Record := .value name t.reference (Operand.inputs operands t.carried.toList)
      have hreads : ∀ r ∈ first.reads, t.carried = some r ∨ .ref r ∈ Operand.leavesOf operands := by
        intro r hr
        exact (Operand.mem_reads_inputs.mp hr).imp_left fun hc => by simpa using hc
      have hfirst : Follows (fun r => .ref r ∈ Operand.leavesOf operands) s [first.item]
          (s.withVersions w) :=
        target_follows he (fun x hx => ht x (by simp [hx])) rfl hreads
      refine hfirst.append (ih hts (fun x hx => ht x ?_) hr)
      split
      · exact hx
      · exact List.mem_cons_of_mem _ hx

/-- The operands are read, the targets are written, the records are made. -/
theorem assignment_follows {e : Expr} {targets : List Expr} {statement : Except Fault String}
    {line : Option Int} {operands : List Operand} {written : List Target} {v v' : Versions}
    {s s' : LoweringState} {f : Fragment} {known : Reference → Prop}
    (ho : e.operands s.versions = .ok (operands, v))
    (ht : targets.mapM Expr.target v = .ok (written, v'))
    (hf : assignTargets statement line operands written (s.withVersions v') = .ok (f, s'))
    (hu : Plain e.uses)
    (hn : ∀ x ∈ targets.filterMap Expr.targetName?, isConditionName x = false) :
    Follows known s (f.records.map Record.item) s' := by
  obtain ⟨ha, hl⟩ := operands_advance ho hu
  obtain ⟨ha', -, hr⟩ := assignTargets_advances hf
  have htargets : Follows (fun r => .ref r ∈ Operand.leavesOf operands) (s.withVersions v)
      (f.records.map Record.item) (s.withVersions v') := targets_follow ht hn hr
  have hread : Follows known s [] (s.withVersions v) := .of_advances ha
  have hwritten := hread.append_of_known htargets fun r hr => .inl (hl r hr)
  have h := hwritten.append (.of_advances ha')
  rwa [List.append_nil, List.nil_append] at h

theorem assign_follows {targets : List Expr} {value : Expr} {line : Option Int}
    {s s' : LoweringState} {f : Fragment} {known : Reference → Prop}
    (h : assign targets value line s = .ok (f, s'))
    (hu : Plain value.uses)
    (hn : ∀ x ∈ targets.filterMap Expr.targetName?, isConditionName x = false) :
    Follows known s (f.records.map Record.item) s' := by
  obtain ⟨operands, v, written, v', ho, ht, hf⟩ := assign_eq_ok h
  exact assignment_follows ho ht hf hu hn

theorem declare_advances (s : LoweringState) (x : String) (d : Domain) :
    Advances s [] { s with scope := s.scope.declare x d } :=
  .idle rfl rfl (.nil _) nofun (.refl _)

theorem annAssign_follows {target typeExpr : Expr} {value : Option Expr} {line : Option Int}
    {s s' : LoweringState} {f : Fragment} {known : Reference → Prop}
    (h : annAssign target typeExpr value line s = .ok (f, s'))
    (hu : Plain (Expr.usesOfEach (initialValue? value).toList))
    (hn : ∀ x ∈ target.targetName?.toList, isConditionName x = false) :
    Follows known s (f.records.map Record.item) s' := by
  obtain ⟨x, d, -, ⟨-, rfl, rfl⟩ | h⟩ := annAssign_eq_ok h
  · exact .of_advances (declare_advances s x d)
  · obtain ⟨e, operands, v, written, v', he, ho, ht, hf⟩ := h
    have hmap := mapM_target_singleton ht
    have hue : Plain e.uses := by
      rw [he] at hu
      simpa [Expr.usesOfEach] using hu
    refine (Follows.of_advances (declare_advances s x d)).append
      (assignment_follows (s := { s with scope := s.scope.declare x d }) ho hmap hf hue ?_)
    intro y hy
    exact hn y (by simpa using hy)

theorem mem_of_effectInputs {line : Option Int} {arguments : List (List Operand)}
    {input : List Reference} (h : effectInputs line arguments = .ok input) :
    ∀ r ∈ input, Input.ref r ∈ Operand.leavesOfArguments arguments := by
  fun_induction effectInputs line arguments generalizing input with
  | case1 =>
    cases h
    exact nofun
  | case2 rest l ih => exact ih h
  | case3 rest q ih =>
    obtain ⟨others, ho, h⟩ := except_bind_eq_ok.mp h
    obtain rfl := except_pure_eq_ok.mp h
    intro r hr
    rcases List.mem_cons.mp hr with rfl | hr
    · exact List.mem_cons_self
    · exact List.mem_cons_of_mem _ (ih ho r hr)
  | case4 => cases h
  | case5 => cases h

theorem effect_follows {value : Expr} {line : Option Int} {s s' : LoweringState} {f : Fragment}
    {known : Reference → Prop} (h : effect value line s = .ok (f, s')) (hu : Plain value.uses) :
    Follows known s (f.records.map Record.item) s' := by
  obtain ⟨func, args, keywords, own, callee, arguments, v, input, rfl, -, ho, hi, rfl, rfl⟩ :=
    effect_eq_ok h
  obtain ⟨hv, hl⟩ := Expr.operandsOfEach_reads args ho fun u hm => (hu u hm).1
  have ha : Advances s [] (s.withVersions v) := by
    refine .idle rfl rfl hv (fun x hx => ?_) (.refl _)
    obtain ⟨u, hm, rfl⟩ := List.mem_map.mp hx
    exact (hu u hm).2
  refine ⟨ha.of_writes_eq rfl, .of_known fun i hm r hr => ?_⟩
  obtain rfl := List.mem_singleton.mp hm
  obtain ⟨hmem, hx⟩ := hl r (mem_of_effectInputs hi r hr)
  exact .inl ⟨(hu _ hmem).2, hx⟩

end Lowering
end ProgramGraph
