import ProgramGraph.Proofs.Scopes.Seen

/-! Expressions in which names are read only: their operands show what they mention at the versions
that they find, nothing changes but for variables that are pinned at the baseline, and once more they
find the same. -/
namespace ProgramGraph

open ProgramGraph.Graph Lowering LoweringState

/-- What is mentioned, at the version that a read sees. -/
def Graph.Source.at (v : Versions) : Source → Input
  | .var x => .ref ⟨x, v.current x⟩
  | .function name => .function name

theorem Graph.Source.variable?_eq_some {s : Source} {x : String} :
    s.variable? = some x ↔ s = .var x := by
  cases s with
  | var y =>
    constructor
    · intro h
      rw [Option.some.inj h]
    · rintro ⟨⟩
      rfl
  | function name => exact iff_of_false nofun nofun

namespace Versions
variable {v v' w : Versions} {xs ys : List String}

/-- Variables were seen, and `w` has them at the versions that `v` has. -/
def PinnedIn (v : Versions) (xs : List String) (w : Versions) : Prop :=
  ∀ x ∈ xs, w.Seen x ∧ w.current x = v.current x

theorem pinnedIn_append : v.PinnedIn (xs ++ ys) w ↔ v.PinnedIn xs w ∧ v.PinnedIn ys w :=
  List.forall_mem_append

/-- Reads do not matter. -/
theorem PinnedIn.of_same (h : v.PinnedIn xs w) (hs : Same v v') : v'.PinnedIn xs w :=
  fun x hx => ⟨(h x hx).1, (h x hx).2.trans (hs.current x).symm⟩

/-- Behind reads a variable that was not seen before is pinned at the baseline if it is one of those
that were read. -/
theorem Reads.get?_latest (h : v.Reads xs v') (hc : ∀ x ∈ xs, v'.Seen x) (x : String) :
    v'.latest.get? x = (v.latest.get? x).or (if x ∈ xs then some v.baseline else none) := by
  by_cases hx : x ∈ xs
  · obtain ⟨n, hn⟩ := Option.isSome_iff_exists.mp (hc x hx)
    have hcurrent := h.current x
    unfold current at hcurrent
    rw [hn, Option.getD_some] at hcurrent
    rw [if_pos hx, hn, hcurrent]
    cases v.latest.get? x <;> rfl
  · rw [if_neg hx, Option.or_none, h.latest x hx]

end Versions

open Versions

namespace Expr

mutual

/-- Where all variables that are read were seen, operands change nothing. -/
theorem operands_of_pinned (e : Expr) {v v' w : Versions} {os : List Operand}
    (h : e.operands v = .ok (os, v')) (hl : ∀ u ∈ e.uses, u.2 = .load)
    (hw : v.PinnedIn (e.uses.map Prod.fst) w) : e.operands w = .ok (os, w) := by
  cases e with
  | constant l line =>
    obtain ⟨rfl, -⟩ := pure_eq_ok.mp h
    rfl
  | name id access line =>
    obtain rfl : access = .load := hl _ List.mem_cons_self
    obtain ⟨r, v₁, hr, h⟩ := bind_eq_ok.mp h
    obtain ⟨rfl, -⟩ := Versioning.read_eq_ok.mp hr
    obtain ⟨rfl, -⟩ := pure_eq_ok.mp h
    obtain ⟨hseen, hcurrent⟩ := hw id List.mem_cons_self
    rw [← hcurrent]
    exact bind_eq_ok.mpr ⟨_, w, Versioning.read_of_seen hseen, rfl⟩
  | member value attr access line => cases h
  | binary op left right line =>
    obtain ⟨ls, v₁, rs, hls, hrs, rfl⟩ := binary_eq_ok h
    rw [uses, List.forall_mem_append] at hl
    rw [uses, List.map_append, pinnedIn_append] at hw
    have hsame := (left.operands_reads hls hl.1).1.toSame
    have hleft := operands_of_pinned left hls hl.1 hw.1
    have hright := operands_of_pinned right hrs hl.2 (hw.2.of_same hsame)
    exact bind_eq_ok.mpr ⟨ls, w, hleft, bind_eq_ok.mpr ⟨rs, w, hright, rfl⟩⟩
  | unary op operand line =>
    obtain ⟨ps, hps, rfl⟩ := unary_eq_ok h
    exact bind_eq_ok.mpr ⟨ps, w, operands_of_pinned operand hps hl hw, rfl⟩
  | boolean op values line =>
    obtain ⟨oss, hoss, rfl⟩ := boolean_eq_ok h
    exact bind_eq_ok.mpr ⟨oss, w, operandsOfEach_of_pinned values hoss hl hw, rfl⟩
  | compare left ops comparators line =>
    obtain ⟨ls, v₁, rs, hls, hrs, rfl⟩ := compare_eq_ok h
    rw [uses, List.forall_mem_append] at hl
    rw [uses, List.map_append, pinnedIn_append] at hw
    have hsame := (left.operands_reads hls hl.1).1.toSame
    have hleft := operands_of_pinned left hls hl.1 hw.1
    have hrights := operandsOfEach_of_pinned comparators hrs hl.2 (hw.2.of_same hsame)
    exact bind_eq_ok.mpr ⟨ls, w, hleft, bind_eq_ok.mpr ⟨rs, w, hrights, rfl⟩⟩
  | call func args keywords line =>
    obtain ⟨callee, oss, hkeywords, hcallee, hoss, rfl⟩ := call_eq_ok h
    have hargs := operandsOfEach_of_pinned args hoss hl hw
    refine bind_eq_ok.mpr ⟨(), w, Versioning.ofResult_eq_ok.mpr ⟨hkeywords, rfl⟩, ?_⟩
    refine bind_eq_ok.mpr ⟨callee, w, Versioning.ofResult_eq_ok.mpr ⟨hcallee, rfl⟩, ?_⟩
    exact bind_eq_ok.mpr ⟨oss, w, hargs, rfl⟩
  | subscript value index access line =>
    obtain ⟨rfl, x, own, own', rfl, hindex, rfl, -⟩ := subscript_eq_ok h
    obtain ⟨hseen, hcurrent⟩ := hw x List.mem_cons_self
    have hbase : subscriptBase (.name x own own') index line = .ok x := if_pos hindex
    rw [← hcurrent]
    refine bind_eq_ok.mpr ⟨x, w, Versioning.ofResult_eq_ok.mpr ⟨hbase, rfl⟩, ?_⟩
    exact bind_eq_ok.mpr ⟨_, w, Versioning.read_of_seen hseen, rfl⟩
  | list elements access line =>
    obtain ⟨rfl, oss, hoss, rfl⟩ := list_eq_ok h
    exact bind_eq_ok.mpr ⟨oss, w, operandsOfEach_of_pinned elements hoss hl hw, rfl⟩
  | tuple elements access line =>
    obtain ⟨rfl, oss, hoss, rfl⟩ := tuple_eq_ok h
    exact bind_eq_ok.mpr ⟨oss, w, operandsOfEach_of_pinned elements hoss hl hw, rfl⟩
  | unsupported nodeType line => cases h

theorem operandsOfEach_of_pinned (es : List Expr) {v v' w : Versions} {oss : List (List Operand)}
    (h : operandsOfEach es v = .ok (oss, v')) (hl : ∀ u ∈ usesOfEach es, u.2 = .load)
    (hw : v.PinnedIn ((usesOfEach es).map Prod.fst) w) : operandsOfEach es w = .ok (oss, w) := by
  cases es with
  | nil =>
    obtain ⟨rfl, -⟩ := pure_eq_ok.mp h
    rfl
  | cons e rest =>
    obtain ⟨os, v₁, others, hos, hothers, rfl⟩ := operandsOfEach_cons_eq_ok h
    rw [usesOfEach, List.forall_mem_append] at hl
    rw [usesOfEach, List.map_append, pinnedIn_append] at hw
    have hsame := (e.operands_reads hos hl.1).1.toSame
    have hfirst := operands_of_pinned e hos hl.1 hw.1
    have hrest := operandsOfEach_of_pinned rest hothers hl.2 (hw.2.of_same hsame)
    exact bind_eq_ok.mpr ⟨os, w, hfirst, bind_eq_ok.mpr ⟨others, w, hrest, rfl⟩⟩

end

/-- Lowering an expression in which names are read loses none of them and no function, whatever was
folded, and shows them at one version each; nothing changes but that variables without a version
get that of the baseline, and once more it gives the same and changes nothing. -/
theorem operands_read_only {e : Expr} {s s' : LoweringState} {os : List Operand}
    (h : versioning e.operands s = .ok (os, s')) (hloads : ∀ u ∈ e.uses, u.2 = .load)
    (hpaired : e.All isPaired) :
    Operand.leavesOf os = e.mentions.map (Source.at s.versions) ∧
      s' = s.withVersions { s.versions with latest := s'.versions.latest } ∧
      (∀ x, s'.versions.latest.get? x = (s.versions.latest.get? x).or
        (if .var x ∈ e.mentions then some s.versions.baseline else none)) ∧
      versioning e.operands s' = .ok (os, s') := by
  obtain ⟨v, hv, rfl⟩ := versioning_eq_ok.mp h
  obtain ⟨hreads, hleaves⟩ := e.operands_reads hv hloads
  have hmarks : s.versions.Marks False (e.uses.map Prod.fst) v := (e.operands_accesses hv).1.marks
  have hseen := hmarks.covered
  have hversions : (s.withVersions v).versions = v := rfl
  rw [hversions]
  refine ⟨?_, ?_, ?_, ?_⟩
  · rw [← sources_operands e hv hpaired, List.map_map]
    refine (List.map_id _).symm.trans (List.map_congr_left ?_)
    rintro (r | name) hi
    · have hindex := (hleaves r hi).2
      exact congrArg Input.ref (congrArg (Reference.mk r.name) hindex)
    · rfl
  · have hrest : v = { s.versions with latest := v.latest } := by
      obtain ⟨latest, next, baseline⟩ := v
      obtain rfl : baseline = s.versions.baseline := hreads.baseline
      obtain rfl : next = s.versions.next := hreads.next
      rfl
    rw [← hrest]
  · intro x
    have hmention : .var x ∈ e.mentions ↔ x ∈ e.uses.map Prod.fst := by
      rw [← mentions_variables, List.mem_filterMap]
      constructor
      · exact fun hx => ⟨_, hx, rfl⟩
      · rintro ⟨m, hm, hx⟩
        exact Source.variable?_eq_some.mp hx ▸ hm
    rw [hreads.get?_latest hseen x, if_congr hmention rfl rfl]
  · have hpinned : s.versions.PinnedIn (e.uses.map Prod.fst) v :=
      fun x hx => ⟨hseen x hx, hreads.current x⟩
    exact versioning_eq_ok.mpr ⟨v, e.operands_of_pinned hv hloads hpinned, rfl⟩

/-- A read, a folded sum, and a call behind a qualified name that reads again. -/
theorem operands_read_only_sample :
    let one : Expr := .constant ⟨.integer, .number (.ofSafe 1 rfl)⟩ none
    let x : Expr := .name "x" .load none
    let e : Expr := .list [.binary .add x (.binary .add one one none) none,
      .call (.member (.name "m" .load none) "f" .load none)
        [.subscript (.name "a" .load none) one .load none, x] [] none] .load none
    ∃ os s', versioning e.operands ⟨.top, .empty⟩ = .ok (os, s') ∧
      Operand.leavesOf os = [.ref ⟨"x", 0⟩, .function "m.f", .ref ⟨"a", 0⟩, .ref ⟨"x", 0⟩] ∧
      s'.versions.latest.get? "a" = some 0 ∧ versioning e.operands s' = .ok (os, s') := by
  intro one x e
  obtain ⟨os, s', hrun, -⟩ := exists_ok_of_any (m := versioning e.operands)
    (s := ⟨.top, .empty⟩) (q := fun _ => true) (by decide +kernel)
  obtain ⟨hleaves, -, hlatest, hagain⟩ := operands_read_only hrun (by decide) (by decide)
  refine ⟨os, s', hrun, ?_, ?_, hagain⟩
  · rw [hleaves]
    decide +kernel
  · rw [hlatest]
    decide +kernel

/-- A comparator behind an only operator that folds is read and leaves no trace. -/
theorem operands_read_only_unpaired :
    let e : Expr := .compare (.constant ⟨.integer, .number (.ofSafe 1 rfl)⟩ none) [.lt]
      [.constant ⟨.integer, .number (.ofSafe 2 rfl)⟩ none, .name "x" .load none] none
    ∃ os s', versioning e.operands ⟨.top, .empty⟩ = .ok (os, s') ∧
      (∀ u ∈ e.uses, u.2 = .load) ∧ e.mentions = [.var "x"] ∧ Operand.leavesOf os = [] := by
  intro e
  obtain ⟨os, s', hrun, hnone⟩ := exists_ok_of_any (m := versioning e.operands)
    (s := ⟨.top, .empty⟩) (q := fun p => (Operand.leavesOf p.1).isEmpty) (by decide +kernel)
  exact ⟨os, s', hrun, by decide, rfl, List.isEmpty_iff.mp hnone⟩

end Expr
end ProgramGraph
