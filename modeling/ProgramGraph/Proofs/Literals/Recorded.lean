import ProgramGraph.Proofs.Follows.Loop
import ProgramGraph.Proofs.Literals.Payloads

/-! Versions that stand in the header of a loop or in a call for its effect are those of variables
that are read there. -/
namespace ProgramGraph

open ProgramGraph.Graph Lowering

namespace Expr

mutual

/-- Names in value position are read. -/
theorem uses_load (e : Expr) (h : e.All isFormed) : ∀ u ∈ e.uses, u.2 = .load := by
  cases e with
  | name id access line =>
    obtain rfl : access = .load := by simpa [isFormed] using h.self
    intro u hu
    obtain rfl := List.mem_singleton.mp hu
    rfl
  | binary op left right line =>
    exact List.forall_mem_append.mpr ⟨uses_load left h.binary.1, uses_load right h.binary.2⟩
  | unary op operand line => exact uses_load operand h.unary
  | boolean op values line => exact usesOfEach_load values h.boolean
  | compare left ops comparators line =>
    exact List.forall_mem_append.mpr
      ⟨uses_load left h.compare.1, usesOfEach_load comparators h.compare.2⟩
  | call func args keywords line => exact usesOfEach_load args h.call
  | subscript value index access line =>
    intro u hu
    cases value with
    | name id own line =>
      obtain rfl := List.mem_singleton.mp hu
      rfl
    | _ => cases hu
  | list elements access line => exact usesOfEach_load elements h.list
  | tuple elements access line => exact usesOfEach_load elements h.tuple
  | _ => exact nofun

theorem usesOfEach_load (es : List Expr) (h : ∀ e ∈ es, e.All isFormed) :
    ∀ u ∈ usesOfEach es, u.2 = .load := by
  cases es with
  | nil => exact nofun
  | cons e rest =>
    rw [List.forall_mem_cons] at h
    exact List.forall_mem_append.mpr ⟨uses_load e h.1, usesOfEach_load rest h.2⟩

end

theorem reads?_of_residue {e : Expr} {l : Literal} (h : e.residue = .literal l) :
    e.reads? = none := by
  unfold reads?
  split
  · cases h
  · cases h
  · rfl

/-- An operand that is a version shows an expression that reads. -/
theorem Flattens.reads? {e : Expr} {r : Reference} (h : e.Flattens [.ref r]) :
    e.reads? = some r.name := by
  cases h with
  | read _ hread => exact hread
  | several _ hlength => exact absurd hlength (by simp)

theorem Flattens.call_eq {e : Expr} {callee : String} {arguments : List (List Operand)}
    (h : e.Flattens [.call callee arguments]) :
    ∃ func args keywords line, e = .call func args keywords line ∧ func.callee line = .ok callee ∧
      ∃ v v', operandsOfEach args v = .ok (arguments, v') := by
  cases h with
  | call hcallee harguments => exact ⟨_, _, _, _, rfl, hcallee, _, _, harguments⟩
  | several _ hlength => exact absurd hlength (by simp)

theorem Flattens.residue {e : Expr} {l : Literal} (h : e.Flattens [.literal l]) :
    e.residue = .literal l := by
  cases h with
  | literal hres => exact hres
  | several _ hlength => exact absurd hlength (by simp)

end Expr

/-- A version is that of the variable that an expression reads. -/
def Reference.Shows (versions : Versions) (r : Reference) (e : Expr) : Prop :=
  e.reads? = some r.name ∧ r.index = versions.current r.name

/-- A bound is the version that its expression reads, or the number that is its value. -/
def Graph.RangeBound.Shows (versions : Versions) (b : RangeBound) (e : Expr) : Prop :=
  match b with
  | .ref r => r.Shows versions e
  | .literal n => ∀ call σ, e.eval (.standard call) σ = some (.integer n)

namespace Lowering
variable {line : Option Int}

/-- A bound shows the expression that its operands show. -/
theorem rangeBound_shows {bound : Bound} {os : List Operand} {b : RangeBound} {e : Expr}
    {versions : Versions} (h : rangeBound bound line os = .ok b) (hflat : e.Flattens os)
    (hformed : e.All Expr.isFormed) (hexact : e.All Expr.isExact)
    (hindex : ∀ r ∈ b.reads, r.index = versions.current r.name) : b.Shows versions e := by
  unfold rangeBound at h
  split at h
  · obtain rfl := Except.ok.inj h
    exact ⟨hflat.reads?, hindex _ (List.mem_singleton_self _)⟩
  · split at h
    · rename_i l x hd hx
      obtain rfl := Except.ok.inj h
      obtain ⟨v, hv, heval⟩ := e.eval_of_residue hformed hexact hflat.residue
      intro call σ
      cases hv with
      | integer hn hsafe =>
        obtain rfl := Scalar.number.inj hx
        rw [heval, hn, Rat.floor_intCast]
      | real => cases hd
      | string => cases hd
      | boolean => cases hd
    · cases h
  · cases h

theorem rangeOf_eq_ok {os : List Operand} {range : Range} (h : rangeOf line os = .ok range) :
    ∃ start stop, os = [.call "range" [start, stop]] ∧
      rangeBound .start line start = .ok range.start ∧
      rangeBound .stop line stop = .ok range.stop := by
  unfold rangeOf at h
  split at h
  · split at h
    · rename_i start stop
      obtain ⟨first, hstart, h⟩ := except_bind_eq_ok.mp h
      obtain ⟨last, hstop, h⟩ := except_bind_eq_ok.mp h
      obtain rfl := except_pure_eq_ok.mp h
      exact ⟨start, stop, rfl, hstart, hstop⟩
    · cases h
  · cases h

theorem effectInputs_show {versions : Versions} {args : List Expr}
    {arguments : List (List Operand)} {input : List Reference}
    (hflat : List.Forall₂ Expr.Flattens args arguments)
    (h : effectInputs line arguments = .ok input)
    (hindex : ∀ r ∈ input, r.index = versions.current r.name) :
    List.Forall₂ (Reference.Shows versions) input (args.filter (·.reads?.isSome)) := by
  induction hflat generalizing input with
  | nil =>
    cases h
    exact .nil
  | @cons e os args arguments he hrest ih =>
    unfold effectInputs at h
    split at h
    · rename_i heq
      cases heq
    · rename_i l heq
      obtain ⟨rfl, rfl⟩ := List.cons.inj heq
      have hnone := Expr.reads?_of_residue he.residue
      rw [List.filter_cons_of_neg (by rw [hnone]; exact Bool.false_ne_true)]
      exact ih h hindex
    · rename_i r heq
      obtain ⟨rfl, rfl⟩ := List.cons.inj heq
      obtain ⟨others, ho, h⟩ := except_bind_eq_ok.mp h
      obtain rfl := except_pure_eq_ok.mp h
      rw [List.forall_mem_cons] at hindex
      rw [List.filter_cons_of_pos (by rw [he.reads?]; rfl)]
      exact .cons ⟨he.reads?, hindex.1⟩ (ih ho hindex.2)
    · cases h
    · cases h

end Lowering

/-- The bounds that a loop records show those of its header. -/
def Fragment.RecordsBounds (f : Fragment) (versions : Versions) (iter : Expr) : Prop :=
  ∃ func start stop keywords line earlier name inputs index range records,
    iter = .call func [start, stop] keywords line ∧ func.callee line = .ok "range" ∧
    f.functions = earlier ++ [.loopPlate name inputs index range records] ∧
    range.start.Shows versions start ∧ range.stop.Shows versions stop

/-- The inputs that a call records show, in order, the arguments that read a variable. -/
def Fragment.RecordsArguments (f : Fragment) (versions : Versions) (value : Expr) : Prop :=
  ∃ func args keywords line callee input,
    value = .call func args keywords line ∧ func.callee line = .ok callee ∧
    f.records = [.call callee input] ∧
    List.Forall₂ (Reference.Shows versions) input (args.filter (·.reads?.isSome))

namespace Lowering
variable {s s' : LoweringState} {f : Fragment} {line : Option Int}

theorem recordsBounds_of_loop {target iter : Expr} {orelse : List Stmt} {body : Lowering Fragment}
    (h : loop target iter orelse line body s = .ok (f, s')) (hformed : iter.All Expr.isFormed)
    (htraced : iter.All Expr.isTraced) (hexact : iter.All Expr.isExact) :
    f.RecordsBounds s.versions iter := by
  obtain ⟨-, index, os, v, range, inner, s₂, -, ho, hrange, -, -, rfl⟩ := loop_eq_ok h
  have hleaves := (iter.operands_reads ho (iter.uses_load hformed)).2
  have hindex : ∀ r ∈ range.reads, r.index = s.versions.current r.name := fun r hr =>
    (hleaves r (mem_of_rangeOf hrange r hr)).2
  obtain ⟨hstartIndex, hstopIndex⟩ := List.forall_mem_append.mp hindex
  obtain ⟨first, last, rfl, hfirst, hlast⟩ := rangeOf_eq_ok hrange
  obtain ⟨func, args, keywords, own, rfl, hcallee, w, w', harguments⟩ :=
    (iter.operands_flatten ho hformed htraced).call_eq
  obtain ⟨start, _, hstart, hrest, rfl⟩ := List.forall₂_cons_right_iff.mp
    (Expr.operandsOfEach_flatten args harguments hformed.call htraced.call)
  obtain ⟨stop, _, hstop, hnone, rfl⟩ := List.forall₂_cons_right_iff.mp hrest
  obtain rfl := List.forall₂_nil_right_iff.mp hnone
  have hf := hformed.call
  have hx := hexact.call
  exact ⟨func, start, stop, keywords, own, _, _, _, index, range, _, rfl, hcallee, rfl,
    rangeBound_shows hfirst hstart (hf _ (by simp)) (hx _ (by simp)) hstartIndex,
    rangeBound_shows hlast hstop (hf _ (by simp)) (hx _ (by simp)) hstopIndex⟩

theorem recordsArguments_of_effect {value : Expr} (h : effect value line s = .ok (f, s'))
    (hformed : value.All Expr.isFormed) (htraced : value.All Expr.isTraced) :
    f.RecordsArguments s.versions value := by
  obtain ⟨func, args, keywords, own, callee, arguments, v, input, rfl, hcallee, ho, hi, rfl, -⟩ :=
    effect_eq_ok h
  have hleaves := (Expr.operandsOfEach_reads args ho (Expr.usesOfEach_load args hformed.call)).2
  exact ⟨func, args, keywords, own, callee, input, rfl, hcallee, rfl,
    effectInputs_show (Expr.operandsOfEach_flatten args ho hformed.call htraced.call) hi
      fun r hr => (hleaves r (mem_of_effectInputs hi r hr)).2⟩

end Lowering

/-- Versions that loops and calls record are those of the variables that their bounds and arguments
read, and numbers that loops record are the values of their bounds. -/
theorem Stmt.recorded_references_read {s s' : LoweringState} {f : Fragment} {line : Option Int} :
    (∀ {target iter : Expr} {body orelse : List Stmt},
      (Stmt.loop target iter body orelse line).lower s = .ok (f, s') → iter.All Expr.isFormed →
        iter.All Expr.isTraced → iter.All Expr.isExact → f.RecordsBounds s.versions iter) ∧
    ∀ {value : Expr}, (Stmt.expr value line).lower s = .ok (f, s') → value.All Expr.isFormed →
      value.All Expr.isTraced → f.RecordsArguments s.versions value :=
  ⟨recordsBounds_of_loop, recordsArguments_of_effect⟩

/-- `range(n, 2 + 3)`. -/
def Expr.sampleHeader : Expr :=
  let number (n : Int) : Expr := .constant ⟨.integer, .number (Binary64.round? n).get!⟩ none
  .call (.name "range" .load none)
    [.name "n" .load none, .binary .add (number 2) (number 3) none] [] none

/-- `show(n, -1)`. -/
def Expr.sampleShow : Expr :=
  let one : Expr := .constant ⟨.integer, .number (Binary64.round? 1).get!⟩ none
  .call (.name "show" .load none) [.name "n" .load none, .unary .neg one none] [] none

theorem Stmt.recorded_references_read_sample :
    (∃ f s', (Stmt.loop (.name "i" .store none) .sampleHeader [.expr .sampleShow none] [] none).lower
        ⟨.ofFunction "f", .empty⟩ = .ok (f, s') ∧
      f.RecordsBounds (.fresh 0) .sampleHeader) ∧
    ∃ f s', (Stmt.expr .sampleShow none).lower ⟨.ofFunction "f", .empty⟩ = .ok (f, s') ∧
      f.RecordsArguments (.fresh 0) .sampleShow := by
  constructor
  · obtain ⟨f, s', h, -⟩ := exists_ok_of_any (m := (Stmt.loop (.name "i" .store none) .sampleHeader
      [.expr .sampleShow none] [] none).lower) (s := ⟨.ofFunction "f", .empty⟩)
      (q := fun _ => true) (by decide +kernel)
    exact ⟨f, s', h, Stmt.recorded_references_read.1 h (by decide +kernel) (by decide +kernel)
      (by decide +kernel)⟩
  · obtain ⟨f, s', h, -⟩ := exists_ok_of_any (m := (Stmt.expr .sampleShow none).lower)
      (s := ⟨.ofFunction "f", .empty⟩) (q := fun _ => true) (by decide +kernel)
    exact ⟨f, s', h, Stmt.recorded_references_read.2 h (by decide +kernel) (by decide +kernel)⟩

/-- `range(-n, m)`. -/
def Expr.sampleOppositeHeader : Expr :=
  .call (.name "range" .load none)
    [.unary .neg (.name "n" .load none) none, .name "m" .load none] [] none

/-- The range starts at the version of `n`, and yet its first bound does not read `n`. -/
theorem Stmt.bound_drops_operator :
    ∃ f s' inputs records, (Stmt.loop (.name "i" .store none) .sampleOppositeHeader
        [.expr .sampleShow none] [] none).lower ⟨.ofFunction "f", .empty⟩ = .ok (f, s') ∧
      .loopPlate "f__loop_plate__i_0" inputs "i" ⟨.ref ⟨"n", 0⟩, .ref ⟨"m", 0⟩⟩ records ∈
        f.functions ∧
      ¬ f.RecordsBounds (.fresh 0) .sampleOppositeHeader := by
  obtain ⟨f, s', h, hf⟩ := exists_ok_of_any (m := (Stmt.loop (.name "i" .store none)
    .sampleOppositeHeader [.expr .sampleShow none] [] none).lower)
    (s := ⟨.ofFunction "f", .empty⟩)
    (q := fun p => decide (p.1.functions = [.loopPlate "f__loop_plate__i_0" ["n"] "i"
      ⟨.ref ⟨"n", 0⟩, .ref ⟨"m", 0⟩⟩ [.call "show" [⟨"n", -1⟩]]])) (by decide +kernel)
  have hfunctions : f.functions = _ := of_decide_eq_true hf
  refine ⟨f, s', ["n"], _, h, hfunctions ▸ List.mem_singleton_self _, ?_⟩
  rintro ⟨func, start, stop, keywords, line, earlier, name, inputs, index, range, records, hiter, -,
    hlast, hstart, -⟩
  obtain ⟨-, hargs, -⟩ := Expr.call.inj hiter
  obtain rfl := (List.cons.inj hargs).1
  rw [hfunctions] at hlast
  rw [← List.nil_append [_]] at hlast
  obtain ⟨-, hplate⟩ := List.append_inj' hlast rfl
  obtain ⟨-, -, -, rfl, -⟩ := Function.loopPlate.inj (List.cons.inj hplate).1
  cases hstart.1

end ProgramGraph
