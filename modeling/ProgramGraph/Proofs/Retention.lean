import ProgramGraph.Proofs.Follows.Assignment

/-! Variables stay visible: lowering only adds to what a scope has seen. -/
namespace ProgramGraph

open Lowering LoweringState

namespace Versions
variable {v v' v'' : Versions}

/-- Whether a variable was read, written or pinned. -/
def Seen (v : Versions) (x : String) : Prop := (v.latest.get? x).isSome

/-- Whatever was seen before is seen still, over the same baseline. -/
structure Extends (v v' : Versions) : Prop where
  baseline : v'.baseline = v.baseline
  seen : ∀ x, v.Seen x → v'.Seen x

theorem Extends.refl (v : Versions) : v.Extends v := ⟨rfl, fun _ h => h⟩

theorem Extends.trans (h : v.Extends v') (h' : v'.Extends v'') : v.Extends v'' where
  baseline := h'.baseline.trans h.baseline
  seen x hx := h'.seen x (h.seen x hx)

/-- Moreover some variables are seen afterwards. -/
structure Covers (v : Versions) (xs : List String) (v' : Versions) : Prop
    extends Extends v v' where
  covered : ∀ x ∈ xs, v'.Seen x

theorem Extends.covers (h : v.Extends v') : v.Covers [] v' := ⟨h, nofun⟩

theorem Covers.append {xs ys : List String} (h : v.Covers xs v') (h' : v'.Covers ys v'') :
    v.Covers (xs ++ ys) v'' where
  toExtends := h.toExtends.trans h'.toExtends
  covered x hx := by
    rcases List.mem_append.mp hx with hx | hx
    · exact h'.seen x (h.covered x hx)
    · exact h'.covered x hx

theorem Reads.extends {xs : List String} (h : v.Reads xs v') : v.Extends v' :=
  ⟨h.baseline, h.seen⟩

theorem extends_read (v : Versions) (x : String) : v.Extends (v.read x).2 :=
  (Reads.read v x).extends

theorem covers_insert (v : Versions) (x : String) (n : Int) (next : Table Int) :
    v.Covers [x] { v with latest := v.latest.insert x n, next := next } := by
  refine ⟨⟨rfl, fun y hy => ?_⟩, fun y hy => ?_⟩
  · unfold Seen
    rw [Table.get?_insert]
    split
    · rfl
    · exact hy
  · obtain rfl := List.mem_singleton.mp hy
    unfold Seen
    rw [Table.get?_insert, if_pos rfl]
    rfl

theorem covers_pin (v : Versions) (x : String) (n : Int) : v.Covers [x] (v.pin x n) :=
  covers_insert v x n v.next

theorem covers_write (v : Versions) (x : String) : v.Covers [x] (v.write x).2 :=
  covers_insert v x _ _

theorem mem_keys_iff_seen {x : String} : x ∈ v.latest.keys ↔ v.Seen x := by
  rw [Table.mem_keys_iff, Seen, Option.isSome_iff_exists]

end Versions

/-- A read of a variable that was seen changes nothing. -/
theorem Versioning.read_of_seen {v : Versions} {x : String} (h : v.Seen x) :
    Versioning.read x v = .ok (⟨x, v.current x⟩, v) := by
  obtain ⟨n, hn⟩ := Option.isSome_iff_exists.mp h
  refine Versioning.read_eq_ok.mpr ⟨rfl, ?_⟩
  unfold Versions.read
  rw [hn]

open Versions

theorem Versions.Accesses.extends {v v' : Versions} {us : List (String × Access)}
    (h : v.Accesses us v') : v.Extends v' := by
  induction h with
  | nil => exact .refl _
  | read v x => exact extends_read v x
  | write v x => exact (covers_write v x).toExtends
  | append _ _ ih ih' => exact ih.trans ih'

namespace Expr

/-- Operands extend what is seen, whatever access their names show. -/
theorem operands_extends (e : Expr) {v v' : Versions} {os : List Operand}
    (h : e.operands v = .ok (os, v')) : v.Extends v' :=
  (e.operands_accesses h).1.extends

theorem operandsOfEach_extends (es : List Expr) {v v' : Versions} {oss : List (List Operand)}
    (h : operandsOfEach es v = .ok (oss, v')) : v.Extends v' :=
  (operandsOfEach_accesses es h).1.extends

theorem target_covers {e : Expr} {v v' : Versions} {t : Target} (h : e.target v = .ok (t, v')) :
    v.Covers e.targetName?.toList v' := by
  obtain ⟨x, w, hx, -, hr, rfl, -⟩ := target_eq_ok h
  have hread := hr.extends.covers
  rw [hx]
  exact hread.append (covers_write w x)

theorem targets_cover (targets : List Expr) {v v' : Versions} {written : List Target}
    (h : targets.mapM target v = .ok (written, v')) :
    v.Covers (targets.filterMap targetName?) v' := by
  induction targets generalizing v written with
  | nil =>
    obtain ⟨-, rfl⟩ := pure_eq_ok.mp h
    exact (Extends.refl v).covers
  | cons e rest ih =>
    rw [List.mapM_cons] at h
    obtain ⟨t, w, ht, h⟩ := bind_eq_ok.mp h
    obtain ⟨ts, w', hts, h⟩ := bind_eq_ok.mp h
    obtain ⟨-, rfl⟩ := pure_eq_ok.mp h
    have hboth := (target_covers ht).append (ih hts)
    rw [targetNames_cons]
    exact hboth

end Expr

mutual

/-- Variables that a statement gives a new version in its own scope. What is written in a loop body
or a definition is not among them, and a list display only declares. -/
def Stmt.written (s : Stmt) : List String :=
  match s with
  | .assign targets _ _ => targets.filterMap Expr.targetName?
  | .annAssign target _ value _ =>
    if (initialValue? value).isSome then target.targetName?.toList else []
  | .branch _ body orelse _ => writtenIn body ++ writtenIn orelse
  | .loop target _ _ _ _ => target.targetName?.toList
  | .functionDef .. | .expr .. | .unsupported .. => []

def Stmt.writtenIn (block : List Stmt) : List String :=
  match block with
  | [] => []
  | s :: rest => s.written ++ writtenIn rest

end

namespace Lowering
variable {s s' : LoweringState} {line : Option Int} {f : Fragment}

theorem assign_covers {targets : List Expr} {value : Expr}
    (h : assign targets value line s = .ok (f, s')) :
    s.versions.Covers (targets.filterMap Expr.targetName?) s'.versions := by
  obtain ⟨os, v, written, v', ho, hw, hf⟩ := assign_eq_ok h
  have hread := (value.operands_extends ho).covers
  have htargets := Expr.targets_cover targets hw
  obtain ⟨-, hv, -⟩ := assignTargets_advances hf
  rw [hv]
  exact hread.append htargets

theorem annAssign_covers {target typeExpr : Expr} {value : Option Expr}
    (h : annAssign target typeExpr value line s = .ok (f, s')) :
    s.versions.Covers (Stmt.annAssign target typeExpr value line).written s'.versions := by
  unfold Stmt.written
  obtain ⟨x, d, -, ⟨hnone, -, rfl⟩ | ⟨e, os, v, written, v', he, ho, ht, hf⟩⟩ := annAssign_eq_ok h
  · rw [hnone]
    exact (Extends.refl _).covers
  · have hread := (e.operands_extends ho).covers
    have htarget := Expr.target_covers ht
    obtain ⟨-, hv, -⟩ := assignTargets_advances hf
    rw [hv, he]
    exact hread.append htarget

theorem effect_extends {value : Expr} (h : effect value line s = .ok (f, s')) :
    s.versions.Extends s'.versions := by
  obtain ⟨func, args, keywords, own, callee, arguments, v, input, rfl, -, ho, -, rfl, rfl⟩ :=
    effect_eq_ok h
  exact Expr.operandsOfEach_extends args ho

theorem condition_extends {test : Expr} {output : Reference}
    (h : condition test line s = .ok ((f, output), s')) : s.versions.Extends s'.versions := by
  obtain ⟨os, v, text, ho, -, rfl, rfl, rfl⟩ := condition_eq_ok h
  have hread := test.operands_extends ho
  exact hread.trans (covers_pin v _ 0).toExtends

section
variable {test : Reference} {start thenExit elseExit : Table Int}

/-- A variable that is merged is seen behind the branches, whatever becomes of it. -/
theorem mergeVariable_covers {x : String}
    (h : mergeVariable test start thenExit elseExit x s = .ok (f, s'))
    (hstart : (start.get? x).isSome → s.versions.Seen x) :
    s.versions.Covers [x] s'.versions := by
  rcases mergeVariable_eq_ok h with ⟨-, -, rfl⟩ | ⟨-, -, -, rfl⟩ | ⟨-, a, b, -, -, rfl⟩
  · exact covers_pin _ x 0
  · split
    · exact covers_pin _ x _
    · rename_i hn
      have hx : s.versions.Seen x := hstart (by simpa [Option.isSome_iff_ne_none] using hn)
      exact ⟨.refl _, by simpa using hx⟩
  · exact covers_write _ x

theorem mergeVariables_cover {names : List String}
    (h : mergeVariables test start thenExit elseExit names s = .ok (f, s'))
    (hstart : ∀ x, (start.get? x).isSome → s.versions.Seen x) :
    s.versions.Covers names s'.versions := by
  induction names generalizing s f with
  | nil =>
    obtain ⟨-, rfl⟩ := pure_eq_ok.mp h
    exact (Extends.refl _).covers
  | cons x names ih =>
    obtain ⟨first, s₁, hf, h⟩ := bind_eq_ok.mp h
    obtain ⟨others, s₂, ho, h⟩ := bind_eq_ok.mp h
    obtain ⟨-, rfl⟩ := pure_eq_ok.mp h
    have hx := mergeVariable_covers hf (hstart x)
    exact hx.append (ih ho fun y hy => hx.seen y (hstart y hy))

end

theorem targetName?_of_loopIndex {target : Expr} {index : String}
    (h : loopIndex target line = .ok index) : target.targetName? = some index := by
  unfold loopIndex at h
  split at h
  · obtain rfl := Except.ok.inj h
    rfl
  all_goals cases h

end Lowering

/-- A block extends what is seen, and whatever it writes in its own scope is seen behind it. -/
theorem Lowers.covers {block : List Stmt} {s s' : LoweringState} {L : Layout}
    (h : Lowers block s L s') : s.versions.Covers (Stmt.writtenIn block) s'.versions := by
  induction h with
  | nil => exact (Extends.refl _).covers
  | assign hmade _ ih => exact (assign_covers hmade).append ih
  | annAssign hmade _ ih => exact (annAssign_covers hmade).append ih
  | effect hmade _ ih => exact (effect_extends hmade).covers.append ih
  | @branch test body orelse line rest s s₁ s₂ s₃ s₄ s₅ tested condition T E decisions L
      htest _ _ hmerge _ ihThen ihElse ih =>
    have htested := condition_extends htest
    -- Both branches start from what the test has seen, and the merge goes back there once more.
    have hback : s₁.versions.Extends (s₃.withLatest s₁.versions.latest).versions :=
      ⟨ihElse.baseline.trans ihThen.baseline, fun _ hx => hx⟩
    have hmerged := mergeVariables_cover hmerge fun _ hx => hx
    have hbranches : s.versions.Covers (Stmt.writtenIn body ++ Stmt.writtenIn orelse) s₄.versions := by
      refine ⟨(htested.trans hback).trans hmerged.toExtends, fun x hx => hmerged.covered x ?_⟩
      rw [mem_distinct, List.mem_append, List.mem_append, mem_keys_iff_seen, mem_keys_iff_seen,
        mem_keys_iff_seen]
      rcases List.mem_append.mp hx with hx | hx
      · exact .inl (.inr (ihThen.covered x hx))
      · exact .inr (ihElse.covered x hx)
    exact hbranches.append ih
  | @loop target iter body line rest s s₂ s₃ v index os range B L htarget hiter _ _ _ _ ih =>
    have hread := (iter.operands_extends hiter).covers
    have hindex : s.versions.Covers target.targetName?.toList (v.write index).2 := by
      rw [targetName?_of_loopIndex htarget]
      exact hread.append (covers_write v index)
    exact hindex.append ih
  | definition _ _ _ _ _ _ _ ih => exact ih

end ProgramGraph
