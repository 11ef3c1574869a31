import ProgramGraph.Proofs.Follows.Assignment

/-! Conditionals follow: the test, both branches, the decisions between them. -/
namespace ProgramGraph

open ProgramGraph.Graph

namespace Lowering

/-- The condition is the next one of its function, and becomes visible at its only version. -/
theorem condition_follows {test : Expr} {line : Option Int} {s s' : LoweringState} {f : Fragment}
    {output : Reference} {known : Reference → Prop}
    (h : condition test line s = .ok ((f, output), s')) (hu : Plain test.uses) :
    Follows known s (f.records.map Record.item) s' ∧
      writes (f.records.map Record.item) = [output] := by
  obtain ⟨operands, v, text, ho, -, rfl, rfl, rfl⟩ := condition_eq_ok h
  obtain ⟨ha, hl⟩ := operands_advance ho hu
  refine ⟨⟨ha.append (.condition rfl rfl ?_), .of_known fun i hm r hr => ?_⟩, rfl⟩
  · exact (Registry.before_next _ _).trans (Registry.before_render _ _ _)
  · obtain rfl := List.mem_singleton.mp hm
    rcases Operand.mem_reads_inputs.mp hr with hc | hr
    · cases hc
    · exact .inl (hl r hr)

/-- Candidates are versions at the end of a branch or at entry. -/
theorem candidates?_eq_some {entry a b : Int} {thenVersion elseVersion : Option Int}
    (h : candidates? entry thenVersion elseVersion = some (a, b)) :
    (some a = thenVersion ∨ some a = elseVersion) ∧ (some b = elseVersion ∨ b = entry) := by
  unfold candidates? at h
  split at h
  · rename_i ha hb
    obtain ⟨rfl, rfl⟩ := Prod.mk.inj (Option.some.inj h)
    exact ⟨.inl (Option.filter_eq_some_iff.mp ha).1.symm,
      .inl (Option.filter_eq_some_iff.mp hb).1.symm⟩
  · rename_i ha hb
    obtain ⟨rfl, rfl⟩ := Prod.mk.inj (Option.some.inj h)
    exact ⟨.inl (Option.filter_eq_some_iff.mp ha).1.symm, .inr rfl⟩
  · rename_i ha hb
    obtain ⟨rfl, rfl⟩ := Prod.mk.inj (Option.some.inj h)
    exact ⟨.inr (Option.filter_eq_some_iff.mp hb).1.symm, .inr rfl⟩
  · cases h

/-- What a variable is merged in: a known condition, and versions that are known wherever a branch
or the entry shows them. -/
structure Mergeable (known : Reference → Prop) (test : Reference) (start thenExit elseExit : Table Int)
    (baseline : Int) : Prop where
  test : known test
  candidate : ∀ x n, isConditionName x = false → some n = thenExit.get? x ∨
    some n = elseExit.get? x ∨ n = (start.get? x).getD baseline → known ⟨x, n⟩

theorem mergeVariable_follows {test : Reference} {start thenExit elseExit : Table Int} {x : String}
    {s s' : LoweringState} {f : Fragment} {known : Reference → Prop}
    (h : mergeVariable test start thenExit elseExit x s = .ok (f, s')) (ht : s.Tracked)
    (hk : Mergeable known test start thenExit elseExit s.versions.baseline)
    (hx : isConditionName x = true → x ∈ s.scope.conditions)
    (hstart : s.versions.latest.get? x = start.get? x) :
    Follows known s (f.records.map Record.item) s' ∧
      ∀ y, y ≠ x → s'.versions.latest.get? y = s.versions.latest.get? y := by
  have hpin : ∀ n y, y ≠ x → (s.versions.pin x n).latest.get? y = s.versions.latest.get? y :=
    fun n y hy => (Table.get?_insert _ _ _ _).trans (if_neg hy)
  rcases mergeVariable_eq_ok h with ⟨hc, rfl, rfl⟩ | ⟨hc, -, rfl, rfl⟩ | ⟨hc, a, b, hab, rfl, rfl⟩
  · refine ⟨.of_advances (.pin hx fun hn => ?_), hpin 0⟩
    rw [ht.named x hc] at hn
    cases hn
  · split
    · rename_i hn
      refine ⟨.of_advances (.pin hx fun _ => ?_), hpin _⟩
      unfold Versions.current
      rw [hstart]
    · exact ⟨.of_advances (.idle rfl rfl (.nil _) nofun (.refl _)), fun _ _ => rfl⟩
  · have hn : isConditionName x = false := by
      cases h : isConditionName x with
      | true => exact absurd (hx h) hc
      | false => rfl
    have hwrite : Advances s [⟨.value (s.registry.next (s.owner ++ "__decision__" ++ x)).1
        ⟨x, s.versions.upcoming x⟩ ([test, ⟨x, a⟩, ⟨x, b⟩].map .ref), [test, ⟨x, a⟩, ⟨x, b⟩],
        some ⟨x, s.versions.upcoming x⟩⟩] (s.withVersions (s.versions.write x).2) := .write hn rfl
    have hname : Advances (s.withVersions (s.versions.write x).2) []
        { s.withVersions (s.versions.write x).2 with
          registry := (s.registry.next (s.owner ++ "__decision__" ++ x)).2 } :=
      .idle rfl rfl (.nil _) nofun (Registry.before_next _ _)
    refine ⟨⟨hwrite.append hname, .of_known fun i hi r hr => .inr ?_⟩, fun y hy => ?_⟩
    · obtain ⟨ha, hb⟩ := candidates?_eq_some hab
      obtain rfl := List.mem_singleton.mp hi
      have hr : r ∈ [test, (⟨x, a⟩ : Reference), ⟨x, b⟩] := hr
      simp only [List.mem_cons, List.not_mem_nil, or_false] at hr
      rcases hr with rfl | rfl | rfl
      · exact hk.test
      · exact hk.candidate x a hn (ha.imp_right .inl)
      · exact hk.candidate x b hn (.inr hb)
    · exact (Versions.get?_latest_write _ _ _).trans (if_neg hy)

theorem mergeVariables_follows {test : Reference} {start thenExit elseExit : Table Int}
    {names : List String} {s s' : LoweringState} {f : Fragment} {known : Reference → Prop}
    (h : mergeVariables test start thenExit elseExit names s = .ok (f, s')) (ht : s.Tracked)
    (hk : Mergeable known test start thenExit elseExit s.versions.baseline) (hnd : names.Nodup)
    (hx : ∀ x ∈ names, isConditionName x = true → x ∈ s.scope.conditions)
    (hstart : ∀ x ∈ names, s.versions.latest.get? x = start.get? x) :
    Follows known s (f.records.map Record.item) s' := by
  induction names generalizing s f with
  | nil =>
    obtain ⟨rfl, rfl⟩ := pure_eq_ok.mp h
    exact .of_advances (.idle rfl rfl (.nil _) nofun (.refl _))
  | cons x names ih =>
    obtain ⟨first, s₁, hf, h⟩ := bind_eq_ok.mp h
    obtain ⟨others, s₂, ho, h⟩ := bind_eq_ok.mp h
    obtain ⟨rfl, rfl⟩ := pure_eq_ok.mp h
    rw [List.nodup_cons] at hnd
    obtain ⟨hfirst, hlatest⟩ := mergeVariable_follows hf ht hk (hx x List.mem_cons_self)
      (hstart x List.mem_cons_self)
    have hrest := ih ho (hfirst.tracked ht) (hfirst.baseline ▸ hk) hnd.2
      (fun y hy hc => hfirst.conditions y (hx y (List.mem_cons_of_mem _ hy) hc))
      fun y hy => (hlatest y fun h => hnd.1 (h ▸ hy)).trans (hstart y (List.mem_cons_of_mem _ hy))
    change Follows known s ((first.records ++ others.records).map Record.item) s₂
    rw [List.map_append]
    exact hfirst.append hrest

/-- What decisions read: the condition, and what is visible at the entry of the branches or at the
end of one of them. -/
def Candidate (condition : Reference) (s₁ s₂ s₃ : LoweringState) (r : Reference) : Prop :=
  r = condition ∨ s₁.Visible r ∨ s₂.Visible r ∨ s₃.Visible r

/-- Conditions among the names that are merged are known as such at the end of the branches. -/
theorem conditions_of_merged {s₁ s₂ s₃ : LoweringState} {is js : List Item} (ht : s₁.Tracked)
    (hthen : Advances s₁ is s₂) (helse : Advances (s₂.withLatest s₁.versions.latest) js s₃)
    {x : String} (hx : x ∈ distinct (s₁.versions.latest.keys ++ s₂.versions.latest.keys ++
      s₃.versions.latest.keys)) (hc : isConditionName x = true) : x ∈ s₃.scope.conditions := by
  have hthenElse : Advances s₁ (is ++ js) s₃ := hthen.reset.append helse
  rw [mem_distinct, List.mem_append, List.mem_append, Table.mem_keys_iff, Table.mem_keys_iff,
    Table.mem_keys_iff] at hx
  rcases hx with (⟨n, hn⟩ | ⟨n, hn⟩) | ⟨n, hn⟩
  · exact hthenElse.conditions x (ht.latest x hc (by simp [hn]))
  · exact helse.conditions x ((hthen.tracked ht).latest x hc (by simp [hn]))
  · exact (hthenElse.tracked ht).latest x hc (by simp [hn])

theorem decisions_follow {condition : Reference} {s₁ s₂ s₃ s₄ : LoweringState} {is js : List Item}
    {decisions : Fragment} (ht : s₁.Tracked) (hthen : Advances s₁ is s₂)
    (helse : Advances (s₂.withLatest s₁.versions.latest) js s₃)
    (hmerge : mergeVariables condition s₁.versions.latest s₂.versions.latest s₃.versions.latest
      (distinct (s₁.versions.latest.keys ++ s₂.versions.latest.keys ++ s₃.versions.latest.keys))
      (s₃.withLatest s₁.versions.latest) = .ok (decisions, s₄)) :
    Follows (Candidate condition s₁ s₂ s₃) (s₃.withLatest s₁.versions.latest)
      (decisions.records.map Record.item) s₄ := by
  have hthenElse : Advances s₁ (is ++ js) s₃ := hthen.reset.append helse
  have hmergeable : Mergeable (Candidate condition s₁ s₂ s₃) condition s₁.versions.latest
      s₂.versions.latest s₃.versions.latest s₃.versions.baseline := by
    refine ⟨.inl rfl, fun x n hx hn => ?_⟩
    rcases hn with hn | hn | hn
    · exact .inr (.inr (.inl ⟨hx, by simp [Versions.current, ← hn]⟩))
    · exact .inr (.inr (.inr ⟨hx, by simp [Versions.current, ← hn]⟩))
    · rw [hthenElse.baseline] at hn
      exact .inr (.inl ⟨hx, hn⟩)
  exact mergeVariables_follows hmerge (hthenElse.reset.tracked ht) hmergeable (nodup_distinct _)
    (fun x hx hc => conditions_of_merged ht hthen helse hx hc) fun _ _ => rfl

end Lowering
end ProgramGraph
