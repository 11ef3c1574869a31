import ProgramGraph.Proofs.Lambdas

/-! The inputs of a record beside the parameters of a lambda: they name the same variables, and
differ only if one variable is an input in two versions. -/
namespace ProgramGraph

open ProgramGraph.Graph

section
variable {α β : Type}

theorem nodup_filterMap {g : α → Option β} {l : List α} (hl : l.Nodup)
    (hg : ∀ a ∈ l, ∀ b ∈ l, ∀ x, g a = some x → g b = some x → a = b) :
    (l.filterMap g).Nodup := by
  refine List.pairwise_filterMap.mpr (List.Pairwise.imp_of_mem ?_ hl)
  intro a b ha hb hne x hx y hy hxy
  subst hxy
  exact hne (hg a ha b hb x hx hy)

variable [DecidableEq α]

theorem distinct_filter (p : α → Bool) (l : List α) :
    distinct (l.filter p) = (distinct l).filter p := by
  induction l with
  | nil => rfl
  | cons a rest ih =>
    cases hp : p a with
    | true =>
      rw [List.filter_cons_of_pos hp, distinct, distinct, List.filter_cons_of_pos hp, ih,
        List.filter_comm]
    | false =>
      have hne : ∀ b ∈ (distinct rest).filter p, decide (b ≠ a) = true := by
        intro b hb
        have hpb := (List.mem_filter.mp hb).2
        simp only [ne_eq, decide_eq_true_eq]
        rintro rfl
        simp [hp] at hpb
      rw [List.filter_cons_of_neg (by simp [hp]), distinct, List.filter_cons_of_neg (by simp [hp]),
        ih, List.filter_comm, List.filter_eq_self.mpr hne]

theorem distinct_eq_self {l : List α} (h : l.Nodup) : distinct l = l := by
  induction l with
  | nil => rfl
  | cons a rest ih =>
    obtain ⟨ha, hrest⟩ := List.nodup_cons.mp h
    have hne : ∀ b ∈ rest, decide (b ≠ a) = true := by
      intro b hb
      simp only [ne_eq, decide_eq_true_eq]
      rintro rfl
      exact ha hb
    rw [distinct, ih hrest, List.filter_eq_self.mpr hne]

theorem filterMap_filter_ne_of_none {g : α → Option β} {a : α} (hg : g a = none) (l : List α) :
    (l.filter (· ≠ a)).filterMap g = l.filterMap g := by
  induction l with
  | nil => rfl
  | cons b rest ih =>
    by_cases hb : b = a
    · subst hb
      simpa [hg] using ih
    · cases hgb : g b <;> simpa [hb, hgb] using ih

/-- Without `a`, only what `a` is mapped to may be missing. -/
theorem filterMap_filter_ne [DecidableEq β] {g : α → Option β} {a : α} {x : β} (hx : g a = some x)
    (l : List α) :
    ((l.filter (· ≠ a)).filterMap g).filter (· ≠ x) = (l.filterMap g).filter (· ≠ x) := by
  induction l with
  | nil => rfl
  | cons b rest ih =>
    by_cases hb : b = a
    · subst hb
      simpa [hx] using ih
    · cases hg : g b with
      | none => simpa [hb, hg] using ih
      | some y =>
        by_cases hy : y = x
        · simpa [hb, hg, hy] using ih
        · simpa [hb, hg, hy] using ih

/-- Repetitions may be dropped before or after the members are mapped. -/
theorem distinct_filterMap [DecidableEq β] (g : α → Option β) (l : List α) :
    distinct ((distinct l).filterMap g) = distinct (l.filterMap g) := by
  induction l with
  | nil => rfl
  | cons a rest ih =>
    cases hg : g a with
    | none =>
      rw [distinct, List.filterMap_cons_none hg, List.filterMap_cons_none hg,
        filterMap_filter_ne_of_none hg, ih]
    | some x =>
      rw [distinct, List.filterMap_cons_some hg, List.filterMap_cons_some hg, distinct, distinct,
        ← distinct_filter, filterMap_filter_ne hg, distinct_filter, ih]

end

/-- The variable of an input, if it is a version. -/
def Graph.Input.versionOf? (i : Input) : Option String := i.reference?.map Reference.name

theorem Graph.Input.versionOf?_eq (i : Input) : i.versionOf? = Source.variable? (Source.ofInput i) := by
  cases i <;> rfl

/-- The variables of the versions that a record takes, in order. -/
def Graph.Record.variables (r : Record) : List String := r.reads.map Reference.name

theorem Graph.Record.variables_value (name : String) (output : Reference) (input : List Input) :
    (Record.value name output input).variables = input.filterMap Input.versionOf? :=
  List.map_filterMap

namespace Operand
variable (operands : List Operand) (carried : List Reference)

/-- What a record and a lambda are both made from. -/
def exposed : List Input := carried.map Input.ref ++ leavesOf operands

theorem parameters_eq :
    parameters operands carried = distinct ((exposed operands carried).filterMap Input.versionOf?) := by
  have hmap : ((exposed operands carried).map Source.ofInput).filterMap Source.variable? =
      (exposed operands carried).filterMap Input.versionOf? := by
    rw [List.filterMap_map]
    exact List.filterMap_congr fun i _ => i.versionOf?_eq.symm
  have hnodup := nodup_parameters operands carried
  rw [← distinct_eq_self hnodup, parameters, sources, distinct_filterMap, ← hmap]
  rfl

/-- Inputs and parameters name the same variables. -/
theorem distinct_inputs :
    distinct ((inputs operands carried).filterMap Input.versionOf?) = parameters operands carried := by
  rw [parameters_eq]
  exact distinct_filterMap _ _

/-- No variable is shown in two versions. -/
def OneVersion : Prop :=
  ∀ r q, Input.ref r ∈ exposed operands carried → Input.ref q ∈ exposed operands carried →
    r.name = q.name → r = q

theorem OneVersion.inputs_eq {operands : List Operand} {carried : List Reference}
    (h : OneVersion operands carried) :
    (inputs operands carried).filterMap Input.versionOf? = parameters operands carried := by
  have hnodup : ((inputs operands carried).filterMap Input.versionOf?).Nodup := by
    refine nodup_filterMap (nodup_distinct _) fun i hi j hj x hx hy => ?_
    cases i with
    | function => cases hx
    | ref r =>
      cases j with
      | function => cases hy
      | ref q =>
        have hname : r.name = q.name := (Option.some.inj hx).trans (Option.some.inj hy).symm
        rw [h r q (mem_distinct.mp hi) (mem_distinct.mp hj) hname]
  rw [← distinct_inputs, distinct_eq_self hnodup]

/-- Operands that show one state do so beside an array that stands as it did in it, or that is not
among them. -/
theorem oneVersion_of_leavesAt {operands : List Operand} {v : Versions}
    {us : List (String × Access)} (hl : Expr.LeavesAt v us (leavesOf operands))
    {carried : Option Reference}
    (hc : ∀ r ∈ carried, r.index = v.current r.name ∨ (r.name, Access.load) ∉ us) :
    OneVersion operands carried.toList := by
  have hkey : ∀ r q, Input.ref r ∈ leavesOf operands → q ∈ carried → r.name = q.name → r = q := by
    intro r q hr hq hn
    obtain ⟨hu, hi⟩ := hl r hr
    rcases hc q hq with hq | hq
    · cases r
      cases q
      simp_all
    · exact absurd (hn ▸ hu) hq
  intro r q hr hq hn
  simp only [exposed, List.mem_append, List.mem_map, Input.ref.injEq, exists_eq_right,
    Option.mem_toList] at hr hq
  rcases hr with hr | hr
  · rcases hq with hq | hq
    · exact Option.some.inj (hr.symm.trans hq)
    · exact (hkey q r hq hr hn.symm).symm
  · rcases hq with hq | hq
    · exact hkey r q hr hq hn
    · have hi := (hl r hr).2
      have hj := (hl q hq).2
      cases r
      cases q
      simp_all

end Operand

namespace Expr

/-- The arrays that get an element after the statement gave them, or one of their elements, a
value. -/
def rewritten (earlier : List String) : List Expr → List String
  | [] => []
  | e :: rest =>
    let later := rewritten (e.targetName?.toList ++ earlier) rest
    match e with
    | .subscript (.name x _ _) _ _ _ => if earlier.contains x then x :: later else later
    | _ => later

theorem rewritten_subset_cons (earlier : List String) (e : Expr) (rest : List Expr) :
    rewritten (e.targetName?.toList ++ earlier) rest ⊆ rewritten earlier (e :: rest) := by
  intro x hx
  unfold rewritten
  dsimp only
  split
  · split
    · exact List.mem_cons_of_mem _ hx
    · exact hx
  · exact hx

/-- An array is carried as it stood before the statement, unless the statement wrote it before. -/
theorem carried_of_targets {targets : List Expr} {earlier : List String} {v₀ v v' : Versions}
    {written : List Target} (h : targets.mapM target v = .ok (written, v'))
    (hv : ∀ x ∉ earlier, v.current x = v₀.current x) :
    ∀ t ∈ written, ∀ r ∈ t.carried, r.name = t.reference.name ∧
      (r.index = v₀.current r.name ∨ r.name ∈ rewritten earlier targets) := by
  induction targets generalizing earlier v written with
  | nil =>
    obtain ⟨rfl, rfl⟩ := pure_eq_ok.mp h
    exact nofun
  | cons e rest ih =>
    rw [List.mapM_cons] at h
    obtain ⟨t, w, he, h⟩ := bind_eq_ok.mp h
    obtain ⟨ts, w', hts, h⟩ := bind_eq_ok.mp h
    obtain ⟨rfl, rfl⟩ := pure_eq_ok.mp h
    obtain ⟨x, u, hx, ht, hu, rfl, hcarried⟩ := target_eq_ok he
    have hlater : ∀ y ∉ e.targetName?.toList ++ earlier, (u.write x).2.current y = v₀.current y := by
      intro y hy
      rw [hx] at hy
      simp only [Option.toList_some, List.singleton_append, List.mem_cons, not_or] at hy
      rw [Versions.current_write, if_neg hy.1, hu.current, hv y hy.2]
    intro s hs r hr
    rcases List.mem_cons.mp hs with rfl | hs
    · rcases hcarried with ⟨-, hnone⟩ | ⟨⟨access, own, index, access', own', rfl, -⟩, hsome⟩
      · rw [hnone] at hr
        cases hr
      · rw [hsome] at hr
        obtain rfl := Option.some.inj hr
        refine ⟨by rw [ht], ?_⟩
        by_cases hmem : x ∈ earlier
        · exact .inr (by simp [rewritten, hmem])
        · exact .inl (hv x hmem)
    · obtain ⟨hname, hindex⟩ := ih hts hlater s hs r hr
      exact ⟨hname, hindex.imp_right fun hm => rewritten_subset_cons earlier e rest hm⟩

end Expr
end ProgramGraph
