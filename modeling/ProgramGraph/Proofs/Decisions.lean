import ProgramGraph.Proofs.Meaning.Preservation
import ProgramGraph.Proofs.Retention

/-! The candidates of a decision are ordered so that the branch that is taken can be told from the
condition and their versions. -/
namespace ProgramGraph

open ProgramGraph.Graph Lowering LoweringState

/-- How candidates are ordered. If the then branch has moved a variable from its entry version, its
exit version comes first and that of the else branch second; if only the else branch has, its exit
version comes first and the entry version second. -/
structure Arranged (entry thenExit elseExit first second : Int) : Prop where
  moved : thenExit ≠ entry → first = thenExit ∧ second = elseExit
  unmoved : thenExit = entry → first = elseExit ∧ second = entry

/-- The first candidate belongs to a true condition, the second one to a false one; where the then
branch leaves a variable at its entry version it is the other way round. -/
theorem Arranged.select {entry thenExit elseExit first second : Int}
    (h : Arranged entry thenExit elseExit first second) (taken : Bool) :
    (if taken = decide (thenExit ≠ entry) then first else second) =
      if taken then thenExit else elseExit := by
  by_cases hmoved : thenExit = entry
  · obtain ⟨rfl, rfl⟩ := h.unmoved hmoved
    cases taken <;> simp [hmoved]
  · obtain ⟨rfl, rfl⟩ := h.moved hmoved
    cases taken <;> simp [hmoved]

/-- A decision on a variable with given versions at entry and at the exits of two branches: its
candidates are arranged, and the one that the condition selects is the exit version of the branch
that is taken, for which the decision stands. -/
def Graph.Record.Selects (condition : Reference) (entry thenExit elseExit : Versions)
    (r : Record) : Prop :=
  ∃ name x version first second,
    r = .value name ⟨x, version⟩ [.ref condition, .ref ⟨x, first⟩, .ref ⟨x, second⟩] ∧
    Arranged (entry.current x) (thenExit.current x) (elseExit.current x) first second ∧
    ∀ {V : Type} (I : Interpretation V) (ρ : Reference → V),
      let taken := I.truth (ρ condition)
      let selected := if taken = decide (thenExit.current x ≠ entry.current x) then first else second
      selected = (if taken then thenExit.current x else elseExit.current x) ∧
        (Meaning.decision thenExit elseExit).value I ρ ⟨x, version⟩
          [.ref condition, .ref ⟨x, first⟩, .ref ⟨x, second⟩] = ρ ⟨x, selected⟩

theorem Graph.Record.selects_of_arranged {condition : Reference}
    {entry thenExit elseExit : Versions} {name x : String} {version first second : Int}
    (h : Arranged (entry.current x) (thenExit.current x) (elseExit.current x) first second) :
    (Record.value name ⟨x, version⟩
      [.ref condition, .ref ⟨x, first⟩, .ref ⟨x, second⟩]).Selects condition entry thenExit
      elseExit := by
  refine ⟨name, x, version, first, second, rfl, h, fun I ρ => ?_⟩
  intro taken selected
  have hselected : selected = if taken then thenExit.current x else elseExit.current x :=
    h.select taken
  refine ⟨hselected, ?_⟩
  have hchosen : (if taken then thenExit else elseExit).current x = selected := by
    rw [hselected]
    split <;> rfl
  have hmem : selected = first ∨ selected = second := by
    change (if _ then _ else _) = _ ∨ (if _ then _ else _) = _
    split
    · exact .inl rfl
    · exact .inr rfl
  change (if _ then ρ ⟨x, (if taken then thenExit else elseExit).current x⟩ else _) = _
  rw [hchosen]
  exact if_pos (hmem.imp (congrArg (Reference.mk x)) (congrArg (Reference.mk x)))

namespace Lowering

theorem arranged_of_candidates? {entry a b : Int} {thenVersion elseVersion : Option Int}
    (h : candidates? entry thenVersion elseVersion = some (a, b)) :
    Arranged entry (thenVersion.getD entry) (elseVersion.getD entry) a b := by
  have hsome : ∀ {o : Option Int} {n : Int}, o.filter (· ≠ entry) = some n →
      o.getD entry = n ∧ n ≠ entry := by
    intro o n ho
    obtain ⟨rfl, hn⟩ := Option.filter_eq_some_iff.mp ho
    exact ⟨rfl, by simpa using hn⟩
  have hnone : ∀ {o : Option Int}, o.filter (· ≠ entry) = none → o.getD entry = entry := by
    intro o ho
    cases o with
    | none => rfl
    | some n => simpa [Option.filter_eq_none_iff] using ho
  unfold candidates? at h
  split at h
  · rename_i ha hb
    obtain ⟨rfl, rfl⟩ := Prod.mk.inj (Option.some.inj h)
    obtain ⟨hthen, hne⟩ := hsome ha
    obtain ⟨helse, -⟩ := hsome hb
    rw [hthen, helse]
    exact ⟨fun _ => ⟨rfl, rfl⟩, fun he => absurd he hne⟩
  · rename_i ha hb
    obtain ⟨rfl, rfl⟩ := Prod.mk.inj (Option.some.inj h)
    obtain ⟨hthen, hne⟩ := hsome ha
    rw [hthen, hnone hb]
    exact ⟨fun _ => ⟨rfl, rfl⟩, fun he => absurd he hne⟩
  · rename_i ha hb
    obtain ⟨rfl, rfl⟩ := Prod.mk.inj (Option.some.inj h)
    obtain ⟨helse, -⟩ := hsome hb
    rw [hnone ha, helse]
    exact ⟨fun hne => absurd rfl hne, fun _ => ⟨rfl, rfl⟩⟩
  · cases h

section
variable {condition : Reference} {entry thenExit elseExit : Versions} {s s' : LoweringState}
  {f : Fragment}

theorem mergeVariable_selects {x : String}
    (h : mergeVariable condition entry.latest thenExit.latest elseExit.latest x s = .ok (f, s'))
    (hbaseline : s.versions.baseline = entry.baseline) (hthen : entry.Extends thenExit)
    (helse : entry.Extends elseExit) :
    ∀ r ∈ f.records, r.Selects condition entry thenExit elseExit := by
  have hleaves : ∀ {exit : Versions}, entry.Extends exit →
      (exit.latest.get? x).getD (entry.current x) = exit.current x := by
    intro exit hexit
    have hl : Leaves entry.latest exit.baseline exit x := leaves_of_seen (hexit.seen x)
    rw [hexit.baseline] at hl
    exact hl.symm
  have hentry : (entry.latest.get? x).getD s.versions.baseline = entry.current x := by
    rw [hbaseline, Versions.current]
  intro r hr
  rcases mergeVariable_eq_ok h with ⟨-, rfl, -⟩ | ⟨-, -, rfl, -⟩ | ⟨-, a, b, hab, rfl, -⟩
  · cases hr
  · cases hr
  · obtain rfl := List.mem_singleton.mp hr
    rw [hentry] at hab
    have harranged := arranged_of_candidates? hab
    rw [hleaves hthen, hleaves helse] at harranged
    exact Record.selects_of_arranged harranged

theorem mergeVariables_select {names : List String}
    (h : mergeVariables condition entry.latest thenExit.latest elseExit.latest names s =
      .ok (f, s'))
    (hseen : entry.Extends s.versions) (hthen : entry.Extends thenExit)
    (helse : entry.Extends elseExit) :
    ∀ r ∈ f.records, r.Selects condition entry thenExit elseExit := by
  induction names generalizing s f with
  | nil =>
    obtain ⟨rfl, -⟩ := pure_eq_ok.mp h
    exact nofun
  | cons x names ih =>
    obtain ⟨first, s₁, hf, h⟩ := bind_eq_ok.mp h
    obtain ⟨others, s₂, ho, h⟩ := bind_eq_ok.mp h
    obtain ⟨rfl, rfl⟩ := pure_eq_ok.mp h
    have hfirst := mergeVariable_selects hf hseen.baseline hthen helse
    have hnext := (mergeVariable_covers hf (hseen.seen x)).toExtends
    intro r hr
    rcases List.mem_append.mp hr with hr | hr
    · exact hfirst r hr
    · exact ih ho (hseen.trans hnext) r hr

end
end Lowering

/-- A conditional is lowered to its test, both branches from the state behind the test, and
decisions of which each selects what the branch that is taken leaves behind. -/
theorem Stmt.branch_selects {test : Expr} {body orelse : List Stmt} {line : Option Int}
    {s s' : LoweringState} {f : Fragment}
    (h : (Stmt.branch test body orelse line).lower s = .ok (f, s')) :
    ∃ tested condition s₁ thenPart s₂ elsePart s₃ decisions,
      Lowering.condition test line s = .ok ((tested, condition), s₁) ∧
      Stmt.lowerBlock body s₁ = .ok (thenPart, s₂) ∧
      Stmt.lowerBlock orelse (s₂.withLatest s₁.versions.latest) = .ok (elsePart, s₃) ∧
      f = tested ++ thenPart ++ elsePart ++ decisions ∧
      ∀ r ∈ decisions.records, r.Selects condition s₁.versions s₂.versions s₃.versions := by
  obtain ⟨tested, condition, s₁, thenPart, s₂, elsePart, s₃, decisions, hc, ht, he, hd, rfl⟩ :=
    branch_eq_ok h
  refine ⟨tested, condition, s₁, thenPart, s₂, elsePart, s₃, decisions, hc, ht, he, rfl, ?_⟩
  obtain ⟨T, hT, -⟩ := Stmt.lowers_of_lowerBlock body ht
  obtain ⟨E, hE, -⟩ := Stmt.lowers_of_lowerBlock orelse he
  have hthen : s₁.versions.Extends s₂.versions := hT.covers.toExtends
  have hback : s₁.versions.Extends (s₂.withLatest s₁.versions.latest).versions :=
    ⟨hthen.baseline, fun _ hx => hx⟩
  have helse : s₁.versions.Extends s₃.versions := hback.trans hE.covers.toExtends
  have hstart : s₁.versions.Extends (s₃.withLatest s₁.versions.latest).versions :=
    ⟨helse.baseline, fun _ hx => hx⟩
  exact mergeVariables_select hd hstart hthen helse

/-- The then branch writes `a`, the other one `y`. -/
def Stmt.sampleBranches : List Stmt × List Stmt :=
  let one : Expr := .constant ⟨.integer, .number (Binary64.round? 1).get!⟩ none
  ([.assign [.name "a" .store none] one none], [.assign [.name "y" .store none] one none])

def Stmt.sampleBranch : Stmt :=
  .branch (.name "a" .load none) Stmt.sampleBranches.1 Stmt.sampleBranches.2 none

theorem Stmt.branch_selects_sample :
    ∃ f s', Stmt.sampleBranch.lower ⟨.ofFunction "f", .empty⟩ = .ok (f, s') ∧
      ∃ (tested thenPart elsePart decisions : Fragment) (condition : Reference)
        (s₁ s₂ s₃ : LoweringState),
        Lowering.condition (.name "a" .load none) none ⟨.ofFunction "f", .empty⟩ =
          .ok ((tested, condition), s₁) ∧
        Stmt.lowerBlock Stmt.sampleBranches.1 s₁ = .ok (thenPart, s₂) ∧
        Stmt.lowerBlock Stmt.sampleBranches.2 (s₂.withLatest s₁.versions.latest) =
          .ok (elsePart, s₃) ∧
        f = tested ++ thenPart ++ elsePart ++ decisions ∧
        ∀ r ∈ decisions.records, r.Selects condition s₁.versions s₂.versions s₃.versions := by
  obtain ⟨f, s', h, -⟩ := exists_ok_of_any (m := Stmt.sampleBranch.lower)
    (s := ⟨.ofFunction "f", .empty⟩) (q := fun _ => true) (by decide +kernel)
  obtain ⟨tested, condition, s₁, thenPart, s₂, elsePart, s₃, decisions, hc, ht, he, hf, hr⟩ :=
    Stmt.branch_selects h
  exact ⟨f, s', h, tested, thenPart, elsePart, decisions, condition, s₁, s₂, s₃, hc, ht, he, hf, hr⟩

/-- The then branch leaves `y` at version 0, and yet the first candidate for `y` is its version 1
from the other branch. -/
theorem Stmt.branch_selects_against_order :
    ∃ f s' tested condition s₁ thenPart s₂,
      Stmt.sampleBranch.lower ⟨.ofFunction "f", .empty⟩ = .ok (f, s') ∧
      Lowering.condition (.name "a" .load none) none ⟨.ofFunction "f", .empty⟩ =
        .ok ((tested, condition), s₁) ∧
      Stmt.lowerBlock Stmt.sampleBranches.1 s₁ = .ok (thenPart, s₂) ∧
      s₂.versions.current "y" = 0 ∧
      .value "f__decision__y_0" ⟨"y", 2⟩ [.ref ⟨"IF_0", 0⟩, .ref ⟨"y", 1⟩, .ref ⟨"y", 0⟩] ∈
        f.records := by
  let thenBlock : Lowering Fragment := do
    let _ ← Lowering.condition (.name "a" .load none) none
    Stmt.lowerBlock Stmt.sampleBranches.1
  obtain ⟨thenPart, s₂, hthen, hexit⟩ := exists_ok_of_any (m := thenBlock)
    (s := ⟨.ofFunction "f", .empty⟩) (q := fun p => decide (p.2.versions.current "y" = 0))
    (by decide +kernel)
  obtain ⟨f, s', h, hrecord⟩ := exists_ok_of_any (m := Stmt.sampleBranch.lower)
    (s := ⟨.ofFunction "f", .empty⟩)
    (q := fun p => decide (.value "f__decision__y_0" ⟨"y", 2⟩
      [.ref ⟨"IF_0", 0⟩, .ref ⟨"y", 1⟩, .ref ⟨"y", 0⟩] ∈ p.1.records)) (by decide +kernel)
  obtain ⟨⟨tested, condition⟩, s₁, hc, ht⟩ := bind_eq_ok.mp hthen
  exact ⟨f, s', tested, condition, s₁, thenPart, s₂, h, hc, ht, of_decide_eq_true hexit,
    of_decide_eq_true hrecord⟩

end ProgramGraph
