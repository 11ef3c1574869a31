import ProgramGraph.Proofs.Independence.Parallel

/-! Statements of a function do the same whatever other functions left in the registry. -/
namespace ProgramGraph

open ProgramGraph.Graph Lowering Registry

namespace Lowering
variable {base : Registry} {owner : String} {line : Option Int}

/-- The key of a counter for something that a function makes. -/
theorem owns_part {s : Scope} (hs : s.name = owner) {role : String} (hrole : role ∈ keyRoles)
    (x : String) : Owns owner (s.name ++ role ++ x) := by
  rw [hs]
  exact .part hrole x

theorem parallel_assignTarget (statement : Except Fault String) (operands : List Operand)
    (t : Target) : Parallel base owner (assignTarget statement line operands t) := by
  unfold assignTarget
  refine .scope_bind fun s hs => ?_
  refine (Parallel.next (owns_part hs (by decide) _)).bind fun name => ?_
  dsimp only
  split
  · refine (Parallel.modifyScope fun s => ?_).bind fun _ => .pure _
    obtain ⟨domains, hd⟩ := s.declareDefault_eq t.reference.name _
    rw [hd]
    rfl
  · refine (Parallel.next (owns_part hs (by decide) _)).bind fun lambda => ?_
    refine (Parallel.ofResult statement).bind fun body => ?_
    exact (Parallel.emit _).bind fun _ => .pure _

theorem parallel_assignTargets (statement : Except Fault String) (operands : List Operand)
    (ts : List Target) : Parallel base owner (assignTargets statement line operands ts) := by
  induction ts with
  | nil => exact .pure _
  | cons t ts ih =>
    exact (parallel_assignTarget statement operands t).bind fun first =>
      ih.bind fun others => .pure _

theorem parallel_assign (targets : List Expr) (value : Expr) :
    Parallel base owner (assign targets value line) := by
  refine (Parallel.versioning _).bind fun operands => ?_
  exact (Parallel.versioning _).bind fun written => parallel_assignTargets _ operands written

theorem parallel_annAssign (target typeExpr : Expr) (value : Option Expr) :
    Parallel base owner (annAssign target typeExpr value line) := by
  refine (Parallel.ofResult _).bind fun x => ?_
  refine (Parallel.ofResult _).bind fun d => ?_
  refine (Parallel.modifyScope ?_).bind fun _ => ?_
  · exact fun _ => rfl
  split
  · exact .pure _
  · refine (Parallel.versioning _).bind fun operands => ?_
    exact (Parallel.versioning _).bind fun written => parallel_assignTargets _ operands [written]

theorem parallel_effect (value : Expr) : Parallel base owner (effect value line) := by
  unfold effect
  split
  · exact (Parallel.versioning _).bind fun (callee, arguments) =>
      (Parallel.ofResult _).bind fun input => .pure _
  · exact .refuse _ _

theorem parallel_condition (test : Expr) : Parallel base owner (condition test line) := by
  refine .scope_bind fun s hs => ?_
  refine (Parallel.versioning _).bind fun operands => ?_
  have hconditions : Owns owner (s.name ++ "#condition") := by
    rw [hs]
    exact .conditions
  refine (Parallel.take hconditions).bind fun n => ?_
  refine (Parallel.modifyScope ?_).bind fun _ => ?_
  · exact fun _ => rfl
  refine (Parallel.next (owns_part hs (by decide) _)).bind fun name => ?_
  refine (Parallel.next (owns_part hs (by decide) _)).bind fun lambda => ?_
  refine (Parallel.ofResult _).bind fun text => ?_
  exact (Parallel.emit _).bind fun _ => .pure _

theorem parallel_mergeVariable (test : Reference) (start thenExit elseExit : Table Int)
    (x : String) : Parallel base owner (mergeVariable test start thenExit elseExit x) := by
  refine .scope_bind fun s hs => ?_
  split
  · exact (Parallel.versioning _).bind fun _ => .pure _
  · dsimp only
    split
    · split
      · exact (Parallel.versioning _).bind fun _ => .pure _
      · exact .pure _
    · refine (Parallel.versioning _).bind fun output => ?_
      exact (Parallel.next (owns_part hs (by decide) _)).bind fun name => .pure _

theorem parallel_mergeVariables (test : Reference) (start thenExit elseExit : Table Int)
    (names : List String) :
    Parallel base owner (mergeVariables test start thenExit elseExit names) := by
  induction names with
  | nil => exact .pure _
  | cons x names ih =>
    exact (parallel_mergeVariable test start thenExit elseExit x).bind fun first =>
      ih.bind fun others => .pure _

theorem parallel_branch (test : Expr) {thenBlock elseBlock : Lowering Fragment}
    (hthen : Parallel base owner thenBlock) (helse : Parallel base owner elseBlock) :
    Parallel base owner (branch test line thenBlock elseBlock) := by
  refine (parallel_condition test).bind fun (tested, output) => ?_
  refine Parallel.latest.bind fun start => ?_
  refine hthen.bind fun thenPart => ?_
  refine Parallel.latest.bind fun thenExit => ?_
  refine (Parallel.versioning _).bind fun _ => ?_
  refine helse.bind fun elsePart => ?_
  refine Parallel.latest.bind fun elseExit => ?_
  refine (Parallel.versioning _).bind fun _ => ?_
  exact (parallel_mergeVariables output start thenExit elseExit _).bind fun decisions => .pure _

theorem parallel_loop (target iter : Expr) (orelse : List Stmt) {body : Lowering Fragment}
    (hbody : Parallel base owner body) :
    Parallel base owner (loop target iter orelse line body) := by
  cases orelse with
  | cons s rest => exact .of_scope (fun _ => .error ⟨.loopElse, line⟩) (fun _ _ => rfl) (by simp)
  | nil =>
  change Parallel base owner (ofResult (loopIndex target line) >>= fun index => _)
  refine (Parallel.ofResult _).bind fun index => ?_
  refine (Parallel.versioning _).bind fun operands => ?_
  refine (Parallel.ofResult _).bind fun range => ?_
  refine (Parallel.versioning _).bind fun _ => ?_
  refine (Parallel.modifyScope fun s => ?_).bind fun _ => ?_
  · obtain ⟨domains, hd⟩ := s.declareDefault_eq index .integer
    rw [hd]
    rfl
  refine .scope_bind fun outer _ => ?_
  refine (Parallel.modifyScope ?_).bind fun _ => ?_
  · exact fun _ => rfl
  refine hbody.bind fun inner => ?_
  refine .scope_bind fun s _ => ?_
  refine (Parallel.modifyScope ?_).bind fun _ => ?_
  · exact fun _ => rfl
  refine .scope_bind fun s hs => ?_
  exact (Parallel.next (owns_part hs (by decide) _)).bind fun name => .pure _

theorem parallel_parameters (parameters : List Parameter) :
    Parallel base owner (parameters.forM (parameter line)) := by
  induction parameters with
  | nil => exact .pure _
  | cons p parameters ih =>
    refine Parallel.bind ?_ fun _ => ih
    refine (Parallel.ofResult _).bind fun d => ?_
    refine (Parallel.modifyScope ?_).bind fun _ => ?_
    · exact fun _ => rfl
    exact (Parallel.versioning _).bind fun _ => .pure _

/-- What is lowered of a function once its name is claimed. -/
def functionBody (name : String) (parameters : List Parameter) (line : Option Int)
    (body : Lowering Fragment) : Lowering Fragment := do
  parameters.forM (parameter line)
  let inner ← body
  let s ← scope
  let input ← ofResult (parameters.mapM fun p => declaration s line p.name)
  let vars ← ofResult (s.versions.latest.keys.mapM (declaration s line))
  return ⟨inner.functions ++ [.container name input vars inner.records], []⟩

theorem parallel_functionBody (name : String) (parameters : List Parameter) (line : Option Int)
    {body : Lowering Fragment} (hbody : Parallel base owner body) :
    Parallel base owner (functionBody name parameters line body) := by
  refine (parallel_parameters parameters).bind fun _ => ?_
  refine hbody.bind fun inner => ?_
  refine .scope_bind fun s _ => ?_
  exact (Parallel.ofResult _).bind fun input => (Parallel.ofResult _).bind fun vars => .pure _

/-- Lower in a scope that nothing enters or leaves. -/
def isolated {α : Type} (inside : Scope) (m : Lowering α) : Lowering α := fun s =>
  (m ⟨inside, s.registry⟩).map fun p => (p.1, ⟨s.scope, p.2.registry⟩)

theorem functionDef_eq (name : String) (parameters : List Parameter) (line : Option Int)
    (body : Lowering Fragment) :
    functionDef name parameters line body =
      claim name line >>= fun _ =>
        isolated (.ofFunction name) (functionBody name parameters line body) := by
  refine congrArg (claim name line >>= ·) (funext fun _ => funext fun s => ?_)
  unfold isolated functionBody
  simp only [bind, StateT.bind, scope, modifyScope, Except.bind]
  cases parameters.forM (parameter line) ⟨.ofFunction name, s.registry⟩ with
  | error => rfl
  | ok p =>
    dsimp only
    cases body p.2 with
    | error => rfl
    | ok q =>
      dsimp only
      cases parameters.mapM fun p => declaration q.2.scope line p.name with
      | error => rfl
      | ok input =>
        dsimp only [ofResult]
        cases q.2.scope.versions.latest.keys.mapM (declaration q.2.scope line) with
        | error => rfl
        | ok vars => rfl

theorem claimed_isolated {α : Type} {m : Lowering α} {inside : Scope}
    (hm : Parallel base inside.name m) {s s' : LoweringState} {a : α}
    (h : isolated inside m s = .ok (a, s')) :
    s'.scope = s.scope ∧ ∀ x ∈ s.registry.claimed, x ∈ s'.registry.claimed := by
  unfold isolated at h
  cases hrun : m ⟨inside, s.registry⟩ with
  | error => simp [hrun, Except.map] at h
  | ok p =>
    obtain ⟨-, rfl⟩ : p.1 = a ∧ ⟨s.scope, p.2.registry⟩ = s' := by
      simpa [hrun, Except.map] using h
    exact ⟨rfl, (hm.keeps rfl hrun).2⟩

theorem agree_isolated {α : Type} {m : Lowering α} {inside s : Scope} {own joint : Registry}
    (h : Agree base (m ⟨inside, own⟩) (m ⟨inside, joint⟩)) :
    Agree base (isolated inside m ⟨s, own⟩) (isolated inside m ⟨s, joint⟩) := by
  unfold isolated
  dsimp only
  generalize m ⟨inside, own⟩ = x at h
  generalize m ⟨inside, joint⟩ = y at h
  cases h with
  | ok h => exact .ok h
  | error => exact .error
  | taken hx hbase => exact .taken (s := ⟨_, _⟩) hx hbase

theorem claim_of_mem {name : String} {s : Scope} {r : Registry} (h : name ∈ r.claimed) :
    claim name line ⟨s, r⟩ = .error ⟨.duplicateFunction name, line⟩ := by
  have hnone : r.claim? name = none := if_pos (by simpa using h)
  unfold claim
  dsimp only
  rw [hnone]

theorem claim_of_not_mem {name : String} {s : Scope} {r : Registry} (h : name ∉ r.claimed) :
    claim name line ⟨s, r⟩ = .ok ((), ⟨s, { r with claimed := name :: r.claimed }⟩) := by
  have hsome : r.claim? name = some { r with claimed := name :: r.claimed } :=
    if_neg (by simpa using h)
  unfold claim
  dsimp only
  rw [hsome]

section Definition
variable {name : String} (parameters : List Parameter) (line : Option Int)
  {body : Lowering Fragment} (hbody : Parallel base name body)
include hbody

/-- A definition may stand in any scope, for its own one is a new one. -/
theorem agree_functionDef (hname : IsPlainName name) {s : Scope} {own joint : Registry}
    (h : Beside base own joint) :
    Agree base (functionDef name parameters line body ⟨s, own⟩)
      (functionDef name parameters line body ⟨s, joint⟩) := by
  have hparallel := parallel_functionBody name parameters line hbody
  let rest : Lowering Fragment :=
    isolated (.ofFunction name) (functionBody name parameters line body)
  rw [functionDef_eq]
  change Agree base (claim name line ⟨s, own⟩ >>= fun p => rest p.2)
    (claim name line ⟨s, joint⟩ >>= fun p => rest p.2)
  by_cases hown : name ∈ own.claimed
  · rw [claim_of_mem hown, claim_of_mem ((h.claimed name).mpr (.inl hown))]
    exact .error
  rw [claim_of_not_mem hown]
  by_cases hbase : name ∈ base.claimed
  · rw [claim_of_mem ((h.claimed name).mpr (.inr hbase))]
    let claimed : LoweringState := ⟨s, { own with claimed := name :: own.claimed }⟩
    change Agree base (rest claimed) (.error _)
    cases hrest : rest claimed with
    | error => exact .error
    | ok p =>
      obtain ⟨-, hmono⟩ := claimed_isolated hparallel hrest
      exact .taken (hmono name List.mem_cons_self) hbase
  · have hjoint : name ∉ joint.claimed := fun hj =>
      ((h.claimed name).mp hj).elim hown hbase
    rw [claim_of_not_mem hjoint]
    exact agree_isolated (hparallel.agree rfl List.mem_cons_self (h.claim hname hbase))

theorem parallel_functionDef (hname : IsPlainName name) :
    Parallel base owner (functionDef name parameters line body) where
  keeps {s s' f} hs h := by
    have hparallel := parallel_functionBody name parameters line hbody
    rw [functionDef_eq] at h
    obtain ⟨_, t, hclaim, hrest⟩ := bind_eq_ok.mp h
    obtain ⟨r, hr, rfl⟩ := claim_eq_ok.mp hclaim
    obtain ⟨hscope, hmono⟩ := claimed_isolated hparallel hrest
    obtain ⟨-, rfl⟩ := claim?_eq_some hr
    refine ⟨(congrArg Scope.name hscope).trans hs, fun x hx => hmono x ?_⟩
    exact List.mem_cons_of_mem _ hx
  agree _ _ h := agree_functionDef parameters line hbody hname h

end Definition
end Lowering

mutual

/-- A statement does the same whatever other functions left behind, if no function in it has a name
with two underscores in a row. -/
theorem Stmt.parallel_lower {base : Registry} (s : Stmt)
    (h : ∀ k ∈ s.signatures, IsPlainName k.1) (owner : String) :
    Parallel base owner s.lower := by
  cases s with
  | functionDef name parameters body line =>
    rw [Stmt.signatures, List.forall_mem_cons] at h
    rw [Stmt.lower]
    exact parallel_functionDef parameters line (Stmt.parallel_lowerBlock body h.2 name) h.1
  | assign targets value line => exact parallel_assign targets value
  | annAssign target typeExpr value line => exact parallel_annAssign target typeExpr value
  | branch test body orelse line =>
    rw [Stmt.signatures, List.forall_mem_append] at h
    rw [Stmt.lower]
    exact parallel_branch test (Stmt.parallel_lowerBlock body h.1 owner)
      (Stmt.parallel_lowerBlock orelse h.2 owner)
  | loop target iter body orelse line =>
    rw [Stmt.signatures, List.forall_mem_append] at h
    rw [Stmt.lower]
    exact parallel_loop target iter orelse (Stmt.parallel_lowerBlock body h.1 owner)
  | expr value line => exact parallel_effect value
  | unsupported nodeType line => exact .refuse _ _

theorem Stmt.parallel_lowerBlock {base : Registry} (block : List Stmt)
    (h : ∀ k ∈ Stmt.signaturesIn block, IsPlainName k.1) (owner : String) :
    Parallel base owner (Stmt.lowerBlock block) := by
  cases block with
  | nil => exact .pure _
  | cons s rest =>
    rw [Stmt.signaturesIn, List.forall_mem_append] at h
    rw [Stmt.lowerBlock]
    exact (Stmt.parallel_lower s h.1 owner).bind fun first =>
      (Stmt.parallel_lowerBlock rest h.2 owner).bind fun others => .pure _

end

end ProgramGraph
