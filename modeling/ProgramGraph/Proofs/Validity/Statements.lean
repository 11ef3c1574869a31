import ProgramGraph.Proofs.Follows.Branch
import ProgramGraph.Proofs.Made
import ProgramGraph.Proofs.Validity.Operands

/-! Statements make functions and records that can stand in a document. -/
namespace ProgramGraph

open ProgramGraph.Graph Lowering LoweringState

/-- Functions and records that can stand in a document. -/
structure Fragment.Fits (f : Fragment) : Prop where
  functions : ∀ g ∈ f.functions, g.Fits
  records : ∀ r ∈ f.records, r.Fits

theorem Fragment.fits_empty : Fragment.Fits ∅ := ⟨nofun, nofun⟩

theorem Fragment.Fits.append {f g : Fragment} (hf : f.Fits) (hg : g.Fits) : (f ++ g).Fits :=
  ⟨List.forall_mem_append.mpr ⟨hf.functions, hg.functions⟩,
    List.forall_mem_append.mpr ⟨hf.records, hg.records⟩⟩

theorem Registry.next_ne (r : Registry) (base : String) : (r.next base).1 ≠ "" := by
  intro he
  rw [next_fst, nameOf] at he
  simpa using congrArg String.length he

theorem conditionName_ne (n : Nat) : conditionName n ≠ "" := by
  intro he
  have hc := isConditionName_conditionName n
  rw [he] at hc
  cases hc

/-- A target that is written, and what it carries along. -/
def Target.Fits (t : Target) : Prop := t.reference.Fits ∧ ∀ r ∈ t.carried.toList, r.Fits

theorem Expr.targetName?_ne {e : Expr} {x : String} (he : e.Admissible)
    (h : e.targetName? = some x) : x ≠ "" := by
  unfold targetName? at h
  split at h
  · obtain rfl := Option.some.inj h
    exact he.name
  · obtain rfl := Option.some.inj h
    exact he.subscript.name
  · cases h

namespace Lowering
variable {v v' : Versions} {s s' : LoweringState} {f : Fragment} {line : Option Int} {b : Nat}

theorem target_fits {e : Expr} {t : Target} (h : e.target v = .ok (t, v')) (he : e.Admissible)
    (hv : v.Within b) (hb : b + 1 < 2 ^ 53) : v'.Within (b + 1) ∧ t.Fits := by
  obtain ⟨x, w, hx, ht, hr, rfl, hc⟩ := Expr.target_eq_ok h
  have hname := Expr.targetName?_ne he hx
  have hw := hv.reads hr (by simpa using hname)
  have hup := hv.upcoming x
  refine ⟨hw.write hname, ht ▸ Reference.Fits.of_le (b := b + 1) hname (by omega) hb, ?_⟩
  rcases hc with ⟨-, hc⟩ | ⟨-, hc⟩
  · simp [hc]
  · simpa [hc] using Reference.Fits.of_le hname (hv.current x) (by omega)

theorem targets_fit {targets : List Expr} {written : List Target}
    (h : targets.mapM Expr.target v = .ok (written, v')) (ht : ∀ e ∈ targets, e.Admissible)
    (hv : v.Within b) (hb : b + written.length < 2 ^ 53) :
    v'.Within (b + written.length) ∧ ∀ t ∈ written, t.Fits := by
  induction targets generalizing v written b with
  | nil =>
    obtain ⟨rfl, rfl⟩ := pure_eq_ok.mp h
    exact ⟨hv, nofun⟩
  | cons e targets ih =>
    rw [List.mapM_cons] at h
    obtain ⟨t, w, he, h⟩ := bind_eq_ok.mp h
    obtain ⟨ts, w', hts, h⟩ := bind_eq_ok.mp h
    obtain ⟨rfl, rfl⟩ := pure_eq_ok.mp h
    rw [List.forall_mem_cons] at ht
    rw [List.length_cons] at hb ⊢
    obtain ⟨hw, hfirst⟩ := target_fits he ht.1 hv (by omega)
    obtain ⟨hw', hrest⟩ := ih hts ht.2 hw (by omega)
    refine ⟨?_, List.forall_mem_cons.mpr ⟨hfirst, hrest⟩⟩
    rwa [Nat.add_right_comm, Nat.add_assoc] at hw'

theorem assignTarget_fits {statement : Except Fault String} {operands : List Operand} {t : Target}
    (h : assignTarget statement line operands t s = .ok (f, s'))
    (hline : ∀ n ∈ line, Binary64.isSafe n = true) (ho : ∀ o ∈ operands, o.Fits) (ht : t.Fits) :
    f.Fits := by
  obtain ⟨payload, rfl, hp⟩ := assignTarget_eq_ok h
  have hs := Operand.sources_fit ho ht.2
  have hi := Operand.inputs_fit ho ht.2
  have hpayload : payload.Fits := by
    rcases hp with ⟨l, -, rfl, -⟩ | ⟨body, -, rfl, -⟩
    · trivial
    · exact ⟨Registry.next_ne _ _, hline⟩
  refine ⟨fun g hg => ?_, fun r hr => ?_⟩
  · obtain rfl := List.mem_singleton.mp hg
    exact ⟨Registry.next_ne _ _, ht.1.1, hs, hpayload⟩
  · obtain rfl := List.mem_singleton.mp hr
    exact ⟨Registry.next_ne _ _, ht.1, hi⟩

theorem assignTargets_fit {statement : Except Fault String} {operands : List Operand}
    {ts : List Target} (h : assignTargets statement line operands ts s = .ok (f, s'))
    (hline : ∀ n ∈ line, Binary64.isSafe n = true) (ho : ∀ o ∈ operands, o.Fits)
    (ht : ∀ t ∈ ts, t.Fits) : f.Fits := by
  refine assignTargets_induction (motive := fun _ f _ => f.Fits) h (fun _ => Fragment.fits_empty)
    .append fun t hm _ _ _ hf => ?_
  exact assignTarget_fits hf hline ho (ht t hm)

/-- The bound goes up by the writes among the operands and by one for each target. -/
theorem assignment_fits {e : Expr} {targets : List Expr} {statement : Except Fault String}
    {operands : List Operand} {written : List Target}
    (ho : e.operands s.versions = .ok (operands, v))
    (ht : targets.mapM Expr.target v = .ok (written, v'))
    (hf : assignTargets statement line operands written (s.withVersions v') = .ok (f, s'))
    (he : e.Admissible) (hts : ∀ e ∈ targets, e.Admissible)
    (hline : ∀ n ∈ line, Binary64.isSafe n = true) (hs : s.versions.Within b)
    (hb : b + storesIn e.uses + f.functions.length < 2 ^ 53) :
    s'.versions.Within (b + storesIn e.uses + f.functions.length) ∧ f.Fits := by
  obtain ⟨-, hv, hrecords⟩ := assignTargets_advances hf
  have hlength : f.functions.length = written.length :=
    (assignTargets_makes hf).computes.length_eq.trans hrecords.length_eq
  rw [hlength] at hb ⊢
  obtain ⟨hw, hoperands⟩ := Expr.operands_fit e ho he hs (by omega)
  obtain ⟨hw', hwritten⟩ := targets_fit ht hts hw (by omega)
  rw [hv]
  exact ⟨hw', assignTargets_fit hf hline hoperands hwritten⟩

theorem assign_fits {targets : List Expr} {value : Expr}
    (h : assign targets value line s = .ok (f, s')) (hts : ∀ e ∈ targets, e.Admissible)
    (he : value.Admissible) (hline : ∀ n ∈ line, Binary64.isSafe n = true)
    (hs : s.versions.Within b) (hb : b + storesIn value.uses + f.functions.length < 2 ^ 53) :
    s'.versions.Within (b + storesIn value.uses + f.functions.length) ∧ f.Fits := by
  obtain ⟨operands, v, written, v', ho, ht, hf⟩ := assign_eq_ok h
  exact assignment_fits ho ht hf he hts hline hs hb

theorem initialValue?_eq_some {value : Option Expr} {e : Expr}
    (h : initialValue? value = some e) : value = some e := by
  unfold initialValue? at h
  split at h
  · cases h
  · cases h
  · exact h

theorem annAssign_fits {target typeExpr : Expr} {value : Option Expr}
    (h : annAssign target typeExpr value line s = .ok (f, s')) (ht : target.Admissible)
    (he : ∀ e ∈ value, e.Admissible) (hline : ∀ n ∈ line, Binary64.isSafe n = true)
    (hs : s.versions.Within b)
    (hb : b + storesIn (Expr.usesOfEach (initialValue? value).toList) + f.functions.length < 2 ^ 53) :
    s'.versions.Within
        (b + storesIn (Expr.usesOfEach (initialValue? value).toList) + f.functions.length) ∧
      f.Fits := by
  obtain ⟨x, d, -, ⟨hi, rfl, rfl⟩ | h⟩ := annAssign_eq_ok h
  · exact ⟨hs.mono (by omega), Fragment.fits_empty⟩
  · obtain ⟨e, operands, v, written, v', hi, ho, hw, hf⟩ := h
    have hmap := mapM_target_singleton hw
    have huses : Expr.usesOfEach (initialValue? value).toList = e.uses := by
      simp [hi, Expr.usesOfEach]
    rw [huses] at hb ⊢
    exact assignment_fits (s := { s with scope := s.scope.declare x d }) ho hmap hf
      (he e (initialValue?_eq_some hi)) (by simpa using ht) hline hs hb

theorem effect_fits {value : Expr} (h : effect value line s = .ok (f, s')) (he : value.Admissible)
    (hs : s.versions.Within b) (hb : b + storesIn value.uses < 2 ^ 53) :
    s'.versions.Within (b + storesIn value.uses) ∧ f.Fits := by
  obtain ⟨func, args, keywords, own, callee, arguments, v, input, rfl, hc, ho, hi, rfl, rfl⟩ :=
    effect_eq_ok h
  obtain ⟨hw, harguments⟩ := Expr.operandsOfEach_fit args ho he.call.2 hs hb
  refine ⟨hw, nofun, fun r hr => ?_⟩
  obtain rfl := List.mem_singleton.mp hr
  exact ⟨Expr.callee_ne he.call.1 hc, fun q hq =>
    Operand.leavesOfArguments_fit arguments harguments _ (mem_of_effectInputs hi q hq)⟩

theorem condition_fits {test : Expr} {output : Reference}
    (h : condition test line s = .ok ((f, output), s')) (he : test.Admissible)
    (hline : ∀ n ∈ line, Binary64.isSafe n = true) (hs : s.versions.Within b)
    (hb : b + storesIn test.uses < 2 ^ 53) :
    s'.versions.Within (b + storesIn test.uses) ∧ f.Fits ∧ output.Fits := by
  obtain ⟨operands, v, text, ho, -, rfl, rfl, rfl⟩ := condition_eq_ok h
  obtain ⟨hw, hoperands⟩ := Expr.operands_fit test ho he hs hb
  have hname := conditionName_ne (s.registry.take (s.owner ++ "#condition")).1
  have houtput : Reference.Fits ⟨_, 0⟩ := Reference.Fits.of_le (b := 0) hname (by omega) (by omega)
  refine ⟨hw.pin hname (by omega), ⟨fun g hg => ?_, fun r hr => ?_⟩, houtput⟩
  · obtain rfl := List.mem_singleton.mp hg
    exact ⟨Registry.next_ne _ _, hname, Operand.sources_fit hoperands nofun,
      Registry.next_ne _ _, hline⟩
  · obtain rfl := List.mem_singleton.mp hr
    exact ⟨Registry.next_ne _ _, houtput, Operand.inputs_fit hoperands nofun⟩

theorem mergeVariable_fits {test : Reference} {start thenExit elseExit : Table Int} {x : String}
    (h : mergeVariable test start thenExit elseExit x s = .ok (f, s')) (htest : test.Fits)
    (hx : x ≠ "") (hstart : start.Within b) (hthen : thenExit.Within b) (helse : elseExit.Within b)
    (hs : s.versions.Within b) (hb : b + f.functions.length < 2 ^ 53) :
    s'.versions.Within (b + f.functions.length) ∧ f.Fits := by
  have hentry : -1 ≤ (start.get? x).getD s.versions.baseline ∧
      (start.get? x).getD s.versions.baseline ≤ b := by
    cases hg : start.get? x with
    | some n => exact (hstart x n hg).2
    | none =>
      have := hs.baseline
      simp only [Option.getD_none]
      omega
  rcases mergeVariable_eq_ok h with ⟨-, rfl, rfl⟩ | ⟨-, -, rfl, rfl⟩ | ⟨-, a, c, hc, rfl, rfl⟩
  · exact ⟨hs.pin hx (by omega), Fragment.fits_empty⟩
  · refine ⟨?_, Fragment.fits_empty⟩
    split
    · exact hs.pin hx hentry
    · exact hs
  · have hup := hs.upcoming x
    obtain ⟨ha, hc⟩ := candidates?_eq_some hc
    have hleft : -1 ≤ a ∧ a ≤ b := by
      rcases ha with ha | ha
      · exact (hthen x a ha.symm).2
      · exact (helse x a ha.symm).2
    have hright : -1 ≤ c ∧ c ≤ b := by
      rcases hc with hc | rfl
      · exact (helse x c hc.symm).2
      · exact hentry
    have hcount : b + 1 < 2 ^ 53 := hb
    have hinputs : ∀ r ∈ [test, ⟨x, a⟩, ⟨x, c⟩], r.Fits := by
      simp only [List.forall_mem_cons]
      exact ⟨htest, Reference.Fits.of_le hx hleft (by omega),
        Reference.Fits.of_le hx hright (by omega), nofun⟩
    refine ⟨hs.write hx, fun g hg => ?_, fun r hr => ?_⟩
    · obtain rfl := List.mem_singleton.mp hg
      refine ⟨Registry.next_ne _ _, hx, fun q hq => ?_⟩
      obtain ⟨r, -, rfl⟩ := List.mem_map.mp hq
      intro he
      simpa using congrArg String.length he
    · obtain rfl := List.mem_singleton.mp hr
      refine ⟨Registry.next_ne _ _,
        Reference.Fits.of_le (b := b + 1) hx (by omega) hb, fun i hi => ?_⟩
      obtain ⟨r, hr, rfl⟩ := List.mem_map.mp hi
      exact hinputs r hr

theorem mergeVariables_fit {test : Reference} {start thenExit elseExit : Table Int}
    {names : List String} (h : mergeVariables test start thenExit elseExit names s = .ok (f, s'))
    (htest : test.Fits) (hnames : ∀ x ∈ names, x ≠ "") (hstart : start.Within b)
    (hthen : thenExit.Within b) (helse : elseExit.Within b) (hs : s.versions.Within b)
    (hb : b + f.functions.length < 2 ^ 53) :
    s'.versions.Within (b + f.functions.length) ∧ f.Fits := by
  induction names generalizing s f b with
  | nil =>
    obtain ⟨rfl, rfl⟩ := pure_eq_ok.mp h
    exact ⟨hs, Fragment.fits_empty⟩
  | cons x names ih =>
    obtain ⟨first, s₁, hf, h⟩ := bind_eq_ok.mp h
    obtain ⟨others, s₂, ho, h⟩ := bind_eq_ok.mp h
    obtain ⟨rfl, rfl⟩ := pure_eq_ok.mp h
    rw [List.forall_mem_cons] at hnames
    have hlength : (first ++ others).functions.length =
        first.functions.length + others.functions.length := List.length_append
    rw [hlength, ← Nat.add_assoc] at hb ⊢
    obtain ⟨hw, hfirst⟩ := mergeVariable_fits hf htest hnames.1 hstart hthen helse hs (by omega)
    obtain ⟨hw', hothers⟩ := ih ho hnames.2 (hstart.mono (by omega)) (hthen.mono (by omega))
      (helse.mono (by omega)) hw hb
    exact ⟨hw', hfirst.append hothers⟩

end Lowering

end ProgramGraph
