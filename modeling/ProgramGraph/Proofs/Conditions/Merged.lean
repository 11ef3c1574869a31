import ProgramGraph.Proofs.Conditions.Accounts

/-! Merges are complete: every variable that a branch writes has a decision behind the branches. -/
namespace ProgramGraph

open ProgramGraph.Graph Lowering LoweringState

/-- A decision between two versions of a variable, taken by a condition. -/
def Graph.Record.Decides (condition output : Reference) (r : Record) : Prop :=
  ∃ name first second, r = .value name output
    [.ref condition, .ref ⟨output.name, first⟩, .ref ⟨output.name, second⟩]

/-- What merges on some variables do: a variable with candidates that is no condition stands in the
end at the version that its decision gives. -/
structure Merges (test : Reference) (start thenExit elseExit : Table Int) (names : List String)
    (s : LoweringState) (f : Fragment) (s' : LoweringState) : Prop where
  conditions : s'.scope.conditions = s.scope.conditions
  baseline : s'.versions.baseline = s.versions.baseline
  frame : ∀ y, y ∉ names → s'.versions.current y = s.versions.current y
  complete : ∀ x ∈ names, x ∉ s.scope.conditions →
    (candidates? ((start.get? x).getD s.versions.baseline) (thenExit.get? x)
      (elseExit.get? x)).isSome →
    ∃ r ∈ f.records, r.Decides test ⟨x, s'.versions.current x⟩

namespace Merges
variable {test : Reference} {start thenExit elseExit : Table Int} {xs ys : List String}
  {s s' s'' : LoweringState} {f g : Fragment}

theorem nil (s : LoweringState) : Merges test start thenExit elseExit [] s ∅ s :=
  ⟨rfl, rfl, fun _ _ => rfl, nofun⟩

theorem append (h : Merges test start thenExit elseExit xs s f s')
    (h' : Merges test start thenExit elseExit ys s' g s'') (hd : ∀ x ∈ xs, x ∉ ys) :
    Merges test start thenExit elseExit (xs ++ ys) s (f ++ g) s'' where
  conditions := h'.conditions.trans h.conditions
  baseline := h'.baseline.trans h.baseline
  frame y hy := by
    rw [List.mem_append, not_or] at hy
    rw [h'.frame y hy.2, h.frame y hy.1]
  complete x hx hc hsome := by
    rcases List.mem_append.mp hx with hx | hx
    · obtain ⟨r, hr, hdecides⟩ := h.complete x hx hc hsome
      rw [← h'.frame x (hd x hx)] at hdecides
      exact ⟨r, List.mem_append_left _ hr, hdecides⟩
    · rw [← h.conditions] at hc
      rw [← h.baseline] at hsome
      obtain ⟨r, hr, hdecides⟩ := h'.complete x hx hc hsome
      exact ⟨r, List.mem_append_right _ hr, hdecides⟩

end Merges

namespace Lowering

section
variable {test : Reference} {start thenExit elseExit : Table Int} {s s' : LoweringState}
  {f : Fragment}

theorem mergeVariable_merges {x : String}
    (h : mergeVariable test start thenExit elseExit x s = .ok (f, s')) :
    Merges test start thenExit elseExit [x] s f s' := by
  have hpin : ∀ n y, y ∉ [x] → (s.versions.pin x n).current y = s.versions.current y := by
    intro n y hy
    rw [Versions.current_pin, if_neg (by simpa using hy)]
  rcases mergeVariable_eq_ok h with ⟨hc, rfl, rfl⟩ | ⟨hc, hnone, rfl, rfl⟩ | ⟨hc, a, b, -, rfl, rfl⟩
  · refine ⟨rfl, rfl, hpin 0, List.forall_mem_singleton.mpr fun hx => ?_⟩
    exact absurd hc hx
  · have hcomplete : ¬(candidates? ((start.get? x).getD s.versions.baseline) (thenExit.get? x)
        (elseExit.get? x)).isSome := by
      rw [hnone]
      exact nofun
    split
    · exact ⟨rfl, rfl, hpin _,
        List.forall_mem_singleton.mpr fun _ h => absurd h hcomplete⟩
    · exact ⟨rfl, rfl, fun _ _ => rfl,
        List.forall_mem_singleton.mpr fun _ h => absurd h hcomplete⟩
  · have hcurrent : (s.versions.write x).2.current x = s.versions.upcoming x := by
      rw [Versions.current_write, if_pos rfl]
    have hdecides : (Record.value (s.registry.next (s.owner ++ "__decision__" ++ x)).1
        ⟨x, s.versions.upcoming x⟩ ([test, ⟨x, a⟩, ⟨x, b⟩].map Input.ref)).Decides test
        ⟨x, (s.versions.write x).2.current x⟩ := by
      rw [hcurrent]
      exact ⟨_, a, b, rfl⟩
    constructor
    case conditions => rfl
    case baseline => rfl
    case frame =>
      intro y hy
      change (s.versions.write x).2.current y = _
      rw [Versions.current_write, if_neg (by simpa using hy)]
    case complete =>
      intro y hy _ _
      obtain rfl := List.mem_singleton.mp hy
      exact ⟨_, List.mem_singleton_self _, hdecides⟩

theorem mergeVariables_merges {names : List String}
    (h : mergeVariables test start thenExit elseExit names s = .ok (f, s')) (hnd : names.Nodup) :
    Merges test start thenExit elseExit names s f s' := by
  induction names generalizing s f with
  | nil =>
    obtain ⟨rfl, rfl⟩ := pure_eq_ok.mp h
    exact .nil s
  | cons x names ih =>
    obtain ⟨first, s₁, hf, h⟩ := bind_eq_ok.mp h
    obtain ⟨others, s₂, ho, h⟩ := bind_eq_ok.mp h
    obtain ⟨rfl, rfl⟩ := pure_eq_ok.mp h
    rw [List.nodup_cons] at hnd
    have hfirst := mergeVariable_merges hf
    have hrest := ih ho hnd.2
    exact hfirst.append hrest (List.forall_mem_singleton.mpr hnd.1)

end

/-- A branch that leaves a variable at another version than it found gives a candidate. -/
theorem candidates?_isSome {entry n : Int} {thenVersion elseVersion : Option Int}
    (h : thenVersion = some n ∨ elseVersion = some n) (hn : n ≠ entry) :
    (candidates? entry thenVersion elseVersion).isSome := by
  have hkept : (some n).filter (· ≠ entry) = some n := by simp [hn]
  unfold candidates?
  rcases h with rfl | rfl
  · rw [hkept]
    cases elseVersion.filter (· ≠ entry) <;> rfl
  · rw [hkept]
    cases thenVersion.filter (· ≠ entry) <;> rfl

/-- A variable to which a branch gives another version is decided on. -/
theorem exists_decision {condition : Reference} {s₁ s₂ s₃ s₄ : LoweringState}
    {decisions : Fragment} {x : String}
    (hmerge : mergeVariables condition s₁.versions.latest s₂.versions.latest s₃.versions.latest
      (distinct (s₁.versions.latest.keys ++ s₂.versions.latest.keys ++ s₃.versions.latest.keys))
      (s₃.withLatest s₁.versions.latest) = .ok (decisions, s₄))
    (hbaseline : s₃.versions.baseline = s₁.versions.baseline) (hfree : x ∉ s₃.scope.conditions)
    {v : Versions} (hv : v = s₂.versions ∨ v = s₃.versions) (hseen : v.Seen x)
    (hmoved : v.current x ≠ s₁.versions.current x) :
    ∃ r ∈ decisions.records, r.Decides condition ⟨x, s₄.versions.current x⟩ := by
  have hmerges := mergeVariables_merges hmerge (nodup_distinct _)
  refine hmerges.complete x ?_ hfree ?_
  · rw [mem_distinct, List.mem_append, List.mem_append, Versions.mem_keys_iff_seen,
      Versions.mem_keys_iff_seen, Versions.mem_keys_iff_seen]
    rcases hv with rfl | rfl
    · exact .inl (.inr hseen)
    · exact .inr hseen
  · have hentry : (s₁.versions.latest.get? x).getD s₃.versions.baseline =
        s₁.versions.current x := by
      rw [hbaseline, Versions.current]
    obtain ⟨n, hn⟩ := Option.isSome_iff_exists.mp hseen
    have hcurrent : v.current x = n := by
      rw [Versions.current, hn, Option.getD_some]
    rw [hcurrent] at hmoved
    change (candidates? ((s₁.versions.latest.get? x).getD s₃.versions.baseline) _ _).isSome
    rw [hentry]
    refine candidates?_isSome ?_ hmoved
    rcases hv with rfl | rfl
    · exact .inl hn
    · exact .inr hn

/-- The decisions between two branches account for all that the branches write. -/
theorem decisions_account {condition : Reference} {s₁ s₂ s₃ s₄ : LoweringState}
    {rs qs : List Record} {xs ys : List String} {decisions : Fragment} (hs : s₁.Regular)
    (hthen : Accounts s₁ rs xs s₂)
    (helse : Accounts (s₂.withLatest s₁.versions.latest) qs ys s₃)
    (hseen : ∀ x ∈ xs, s₂.versions.Seen x) (hseen' : ∀ y ∈ ys, s₃.versions.Seen y)
    (hmerge : mergeVariables condition s₁.versions.latest s₂.versions.latest s₃.versions.latest
      (distinct (s₁.versions.latest.keys ++ s₂.versions.latest.keys ++ s₃.versions.latest.keys))
      (s₃.withLatest s₁.versions.latest) = .ok (decisions, s₄)) :
    Accounts (s₃.withLatest s₁.versions.latest) decisions.records (xs ++ ys) s₄ ∧
      ∀ x ∈ xs ++ ys, ∃ r ∈ decisions.records, r.Decides condition ⟨x, s₄.versions.current x⟩ := by
  obtain ⟨is, ha, -, -⟩ := hthen.given
  obtain ⟨js, ha', -, -⟩ := helse.given
  have hall : Advances s₁ (is ++ js) s₃ := ha.reset.append ha'
  have hordinary : ∀ x ∈ xs ++ ys, isConditionName x = false :=
    List.forall_mem_append.mpr ⟨fun x hx => hthen.ordinary hx, fun x hx => helse.ordinary hx⟩
  have hdecided : ∀ x ∈ xs ++ ys, ∃ r ∈ decisions.records,
      r.Decides condition ⟨x, s₄.versions.current x⟩ := by
    intro x hx
    have hfree : x ∉ s₃.scope.conditions := by
      intro hc
      have hnamed := (hall.tracked hs.toTracked).named x hc
      rw [hordinary x hx] at hnamed
      cases hnamed
    rcases List.mem_append.mp hx with hx | hx
    · have hmoved := hthen.moved hs hx
      exact exists_decision hmerge hall.baseline hfree (.inl rfl) (hseen x hx) (by omega)
    · have hmoved := helse.moved (hthen.reset.regular hs) hx
      -- Both branches start from the same versions.
      have hback : (s₂.withLatest s₁.versions.latest).versions.current x =
          s₁.versions.current x := by
        change (s₁.versions.latest.get? x).getD s₂.versions.baseline = _
        rw [hthen.baseline, Versions.current]
      exact exists_decision hmerge hall.baseline hfree (.inr rfl) (hseen' x hx) (by omega)
  have hadvances := (decisions_follow hs.toTracked ha ha' hmerge).toAdvances
  refine ⟨⟨⟨_, hadvances, ?_, fun x hx => ⟨hordinary x hx, ?_⟩⟩, ?_⟩, hdecided⟩
  · rw [writes, List.filterMap_map]
    rfl
  · obtain ⟨r, hr, name, first, second, rfl⟩ := hdecided x hx
    exact List.mem_filterMap.mpr ⟨_, List.mem_map_of_mem hr, rfl⟩
  · exact .of_makes (mergeVariables_parts hmerge) (mergeVariables_makes hmerge) (by decide +kernel)

end Lowering
end ProgramGraph
