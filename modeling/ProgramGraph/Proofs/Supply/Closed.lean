import ProgramGraph.Proofs.Subset.Programs
import ProgramGraph.Proofs.Supply.Free
import ProgramGraph.Proofs.Supply.Records

/-! Lambdas are closed but for arrays that their statement updates for another target. -/
namespace ProgramGraph

open ProgramGraph.Graph Lowering

namespace Lambda

/-- A lambda returns the test of a branch, or it runs an assignment and returns one of its targets.
Beside the statement there are its other targets, and the variables that the lambda reads before it
assigns them. -/
inductive Renders (l : Lambda) : Stmt → List Expr → List String → Prop
  | condition {test : Expr} {body orelse : List Stmt} {line : Option Int}
      (hbody : l.body = []) (hreturns : test.source false = .ok l.returns) :
      Renders l (.branch test body orelse line) [] test.free
  | assign {before after : List Expr} {own value : Expr} {line : Option Int} {text : String}
      (htext : Stmt.assignSource (before ++ own :: after) value = .ok text)
      (hbody : l.body = [text]) (hreturns : own.targetName? = some l.returns) :
      Renders l (.assign (before ++ own :: after) value line) (before ++ after)
        (value.free ++ Expr.freeOfTargets l.returns [] (before ++ own :: after))
  | annAssign {target typeExpr e : Expr} {value : Option Expr} {line : Option Int} {text : String}
      (hvalue : initialValue? value = some e)
      (htext : Stmt.annAssignSource target typeExpr value = .ok text)
      (hbody : l.body = [text]) (hreturns : target.targetName? = some l.returns) :
      Renders l (.annAssign target typeExpr value line) []
        (e.free ++ Expr.freeOfTargets l.returns [] [target])

/-- What the lambda reads before it assigns it is a parameter, or an array of which the statement
updates an element for another target. -/
def IsClosed (l : Lambda) (t : Stmt) : Prop :=
  ∃ others reads, l.Renders t others reads ∧
    ∀ x ∈ reads, x ∈ l.inputs ∨ ∃ e ∈ others, e.array? = some x

end Lambda

namespace Operand

theorem mem_parameters {operands : List Operand} {carried : List Reference} {x : String} :
    x ∈ parameters operands carried ↔
      (∃ r ∈ carried, r.name = x) ∨ x ∈ namesOf (leavesOf operands) := by
  rw [parameters_eq, mem_distinct]
  change x ∈ namesOf (carried.map Input.ref ++ leavesOf operands) ↔ _
  rw [Expr.namesOf_append, List.mem_append]
  refine or_congr_left ?_
  rw [mem_namesOf]
  simp

end Operand

/-- Between two states of the registry lambdas of one kind are written. -/
def Writes (q : Lambda → Prop) (r r' : Registry) : Prop :=
  ∃ lambdas : List Lambda, r'.sink = r.sink ++ lambdas.map Lambda.source ∧ ∀ l ∈ lambdas, q l

namespace Writes
variable {p q : Lambda → Prop} {r r' r'' : Registry}

theorem silent (h : r'.sink = r.sink) : Writes q r r' := ⟨[], by simp [h], nofun⟩

theorem append (h : Writes q r r') (h' : Writes q r' r'') : Writes q r r'' := by
  obtain ⟨ls, hsink, hq⟩ := h
  obtain ⟨ls', hsink', hq'⟩ := h'
  refine ⟨ls ++ ls', ?_, List.forall_mem_append.mpr ⟨hq, hq'⟩⟩
  rw [hsink', hsink, List.map_append, List.append_assoc]

theorem mono (h : Writes p r r') (hpq : ∀ l, p l → q l) : Writes q r r' := by
  obtain ⟨ls, hsink, hp⟩ := h
  exact ⟨ls, hsink, fun l hl => hpq l (hp l hl)⟩

theorem single {l : Lambda} (h : q l) (hsink : r'.sink = r.sink ++ [l.source]) : Writes q r r' :=
  ⟨[l], hsink, List.forall_mem_singleton.mpr h⟩

end Writes

/-- Each target that is written stands somewhere in the assignment, and if it is an element, its
array is carried. -/
theorem Expr.exists_target_of_mem {targets : List Expr} {v v' : Versions} {written : List Target}
    (h : targets.mapM target v = .ok (written, v')) :
    ∀ t ∈ written, ∃ before own after, targets = before ++ own :: after ∧
      own.targetName? = some t.reference.name ∧
      ∀ x, own.array? = some x → ∃ r ∈ t.carried.toList, r.name = x := by
  induction targets generalizing v written with
  | nil =>
    obtain ⟨rfl, rfl⟩ := pure_eq_ok.mp h
    exact nofun
  | cons e rest ih =>
    rw [List.mapM_cons] at h
    obtain ⟨t, w, he, h⟩ := bind_eq_ok.mp h
    obtain ⟨ts, w', hts, h⟩ := bind_eq_ok.mp h
    obtain ⟨rfl, rfl⟩ := pure_eq_ok.mp h
    intro u hu
    rcases List.mem_cons.mp hu with rfl | hu
    · obtain ⟨y, w₁, hy, hreference, -, -, hcarried⟩ := target_eq_ok he
      refine ⟨[], e, rest, rfl, by rw [hy, hreference], fun x hx => ?_⟩
      rcases hcarried with ⟨hname, -⟩ | ⟨helement, hsome⟩
      · obtain ⟨access, own, rfl⟩ := hname
        cases hx
      · obtain ⟨access, own, index, access', own', rfl, -⟩ := helement
        rw [hsome]
        exact ⟨_, List.mem_singleton_self _, Option.some.inj hx⟩
    · obtain ⟨before, own, after, rfl, hname, hcarried⟩ := ih hts u hu
      exact ⟨e :: before, own, after, rfl, hname, hcarried⟩

namespace Lowering
variable {q : Lambda → Prop} {line : Option Int} {s s' : LoweringState} {f : Fragment}

theorem assignTargets_write {statement : Except Fault String} {operands : List Operand}
    {ts : List Target} (h : assignTargets statement line operands ts s = .ok (f, s'))
    (hq : ∀ t ∈ ts, ∀ name text, statement = .ok text →
      q ⟨name, Operand.parameters operands t.carried.toList, [text], t.reference.name⟩) :
    Writes q s.registry s'.registry := by
  refine assignTargets_induction (motive := fun s _ s' => Writes q s.registry s'.registry) h
    (fun _ => .silent rfl) .append fun t ht s s' f h => ?_
  obtain ⟨payload, -, h | h⟩ := assignTarget_eq_ok h
  · obtain ⟨l, -, -, rfl⟩ := h
    exact .silent rfl
  · obtain ⟨text, htext, -, rfl⟩ := h
    exact .single (hq t ht _ text htext) rfl

/-- A lambda of an assignment takes what the value reads, and the array of its own target. -/
theorem isClosed_assign {targets : List Expr} {value : Expr} {operands : List Operand}
    {v w w' : Versions} {written : List Target} {t : Target} {name text : String}
    (ho : value.operands v = .ok (operands, w))
    (ht : targets.mapM Expr.target w = .ok (written, w')) (hmem : t ∈ written)
    (htext : Stmt.assignSource targets value = .ok text) :
    Lambda.IsClosed ⟨name, Operand.parameters operands t.carried.toList, [text], t.reference.name⟩
      (.assign targets value line) := by
  have htargets := List.all_eq_true.mp (isTarget_of_mapM ht)
  obtain ⟨before, own, after, rfl, hname, hcarried⟩ := Expr.exists_target_of_mem ht t hmem
  refine ⟨_, _, .assign htext rfl hname, fun x hx => ?_⟩
  rw [Operand.mem_parameters]
  rcases List.mem_append.mp hx with hx | hx
  · exact .inl (.inr (Expr.free_subset value ho hx))
  · have hown : own ∈ before ++ own :: after := by simp
    obtain ⟨e, he, harray⟩ := Expr.exists_array_of_mem_freeOfTargets htargets hown hname hx
    simp only [List.mem_append, List.mem_cons] at he ⊢
    rcases he with he | rfl | he
    · exact .inr ⟨e, .inl he, harray⟩
    · exact .inl (.inl (hcarried x harray))
    · exact .inr ⟨e, .inr he, harray⟩

theorem assign_writes {targets : List Expr} {value : Expr}
    (h : assign targets value line s = .ok (f, s')) :
    Writes (·.IsClosed (.assign targets value line)) s.registry s'.registry := by
  obtain ⟨operands, v, written, v', ho, ht, hf⟩ := assign_eq_ok h
  have hwrites := assignTargets_write (q := (·.IsClosed (.assign targets value line))) hf
    fun t hmem name text htext => isClosed_assign ho ht hmem htext
  exact hwrites

theorem annAssign_writes {target typeExpr : Expr} {value : Option Expr}
    (h : annAssign target typeExpr value line s = .ok (f, s')) :
    Writes (·.IsClosed (.annAssign target typeExpr value line)) s.registry s'.registry := by
  obtain ⟨x, d, ⟨access, own, rfl⟩, ⟨-, -, rfl⟩ | h⟩ := annAssign_eq_ok h
  · exact .silent rfl
  · obtain ⟨e, operands, v, written, v', he, ho, ht, hf⟩ := h
    obtain ⟨y, w, hy, hreference, -⟩ := Expr.target_eq_ok ht
    have hreturns : x = written.reference.name := by
      rw [hreference]
      exact Option.some.inj hy
    have hnone : Expr.freeOfTargets written.reference.name [] [.name x access own] = [] := by
      simp [Expr.freeOfTargets, hreturns]
    have hwrites := assignTargets_write
      (q := (·.IsClosed (.annAssign (.name x access own) typeExpr value line))) hf ?_
    · exact hwrites
    · intro t hmem name text htext
      obtain rfl := List.mem_singleton.mp hmem
      refine ⟨_, _, .annAssign he htext rfl (congrArg some hreturns), fun z hz => .inl ?_⟩
      rw [hnone, List.append_nil] at hz
      exact Operand.mem_parameters.mpr (.inr (Expr.free_subset e ho hz))

theorem condition_writes {test : Expr} {output : Reference} {body orelse : List Stmt}
    (h : condition test line s = .ok ((f, output), s')) :
    Writes (·.IsClosed (.branch test body orelse line)) s.registry s'.registry := by
  obtain ⟨operands, v, text, ho, htext, -, -, rfl⟩ := condition_eq_ok h
  refine .single ⟨[], test.free, .condition rfl htext, fun x hx => .inl ?_⟩ rfl
  exact Operand.mem_parameters.mpr (.inr (Expr.free_subset test ho hx))

theorem mergeVariables_silent {test : Reference} {start thenExit elseExit : Table Int}
    {names : List String} (h : mergeVariables test start thenExit elseExit names s = .ok (f, s')) :
    s'.registry.sink = s.registry.sink := by
  refine mergeVariables_induction (motive := fun s _ s' => s'.registry.sink = s.registry.sink) h
    (fun _ => rfl) (fun h h' => h'.trans h) fun x _ s s' f h => ?_
  rcases mergeVariable_eq_ok h with ⟨-, -, rfl⟩ | ⟨-, -, -, rfl⟩ | ⟨-, a, b, -, -, rfl⟩
  · rfl
  · split <;> rfl
  · rfl

end Lowering

/-- All lambdas that are written are closed in one of the statements. -/
def WritesClosed (ts : List Stmt) : Registry → Registry → Prop :=
  Writes fun l => ∃ t ∈ ts, l.IsClosed t

namespace WritesClosed
variable {ts us block rest : List Stmt} {t : Stmt} {r r' r'' : Registry}

theorem mono (h : WritesClosed ts r r') (hsub : ts ⊆ us) : WritesClosed us r r' :=
  Writes.mono h fun _ ⟨t, ht, hl⟩ => ⟨t, hsub ht, hl⟩

/-- The lambdas of a statement itself. -/
theorem head (h : Writes (·.IsClosed t) r r') : WritesClosed (Stmt.nestedIn (t :: rest)) r r' :=
  Writes.mono h fun _ hl => ⟨t, by cases t <;> exact List.mem_cons_self, hl⟩

/-- The lambdas of a block in a statement. -/
theorem inner (h : WritesClosed (Stmt.nestedIn block) r r')
    (hsub : Stmt.nestedIn block ⊆ t.nested) : WritesClosed (Stmt.nestedIn (t :: rest)) r r' :=
  h.mono (List.subset_append_of_subset_left _ hsub)

theorem tail (h : WritesClosed (Stmt.nestedIn rest) r r') :
    WritesClosed (Stmt.nestedIn (t :: rest)) r r' :=
  h.mono (List.subset_append_right _ _)

end WritesClosed

/-- All lambdas that a block writes are closed in one of its statements, at any depth. -/
theorem Lowers.writes_closed {block : List Stmt} {s s' : LoweringState} {L : Layout}
    (h : Lowers block s L s') :
    WritesClosed (Stmt.nestedIn block) s.registry s'.registry := by
  induction h with
  | nil => exact .silent rfl
  | assign hmade _ ih => exact (WritesClosed.head (assign_writes hmade)).append ih.tail
  | annAssign hmade _ ih => exact (WritesClosed.head (annAssign_writes hmade)).append ih.tail
  | effect hmade _ ih =>
    obtain ⟨callee, input, v, -, rfl⟩ := effect_eq_call hmade
    exact ih.tail
  | branch htest _ _ hmerge _ ihT ihE ih =>
    refine Writes.append (WritesClosed.head (condition_writes htest)) ?_
    refine Writes.append (ihT.inner (List.subset_cons_of_subset _ (List.subset_append_left _ _))) ?_
    refine Writes.append
      (ihE.inner (List.subset_cons_of_subset _ (List.subset_append_right _ _))) ?_
    have hmerged := mergeVariables_silent hmerge
    exact Writes.append (.silent hmerged) ih.tail
  | @loop _ _ _ _ _ _ s₂ _ _ index _ _ _ _ _ _ _ _ _ ihB ih =>
    refine Writes.append (ihB.inner (List.subset_cons_of_subset _ (List.subset_append_left _ _))) ?_
    have hplate : (s₂.registry.next (s₂.plateBase index)).2.sink = s₂.registry.sink := rfl
    exact Writes.append (.silent hplate) ih.tail
  | @definition _ _ _ _ _ s _ _ _ r _ _ _ _ hclaim hparameters _ _ _ _ ihB ih =>
    obtain ⟨-, hr⟩ := Registry.claim?_eq_some hclaim
    have hclaimed : r.sink = s.registry.sink := by rw [hr]
    rw [registry_parameters hparameters] at ihB
    refine Writes.append (.silent hclaimed) ?_
    exact Writes.append (ihB.inner (List.subset_cons_of_subset _ (List.Subset.refl _))) ih.tail

/-- Every lambda of a program returns the test of one of its branches or runs one of its
assignments. What it reads before it assigns it is a parameter, or an array of which the assignment
updates an element for another target. -/
theorem Outcome.lambdas_closed {ms : List Module} {name date : String} {lowered : Lowered}
    (h : (Outcome.ofModules ms name date).result = .ok lowered) :
    ∃ lambdas : List Lambda, lowered.lambdas = lambdas.map Lambda.source ∧
      ∀ l ∈ lambdas, ∃ t ∈ Stmt.nestedIn (Module.definitions ms), l.IsClosed t := by
  obtain ⟨L, r, hL, hsink⟩ := Outcome.layout_of_ok h
  obtain ⟨lambdas, htexts, hclosed⟩ := hL.lowers.writes_closed
  exact ⟨lambdas, hsink.trans htexts, hclosed⟩

/-- The value of `b = a[0] = a[1] + b` reads the array, so that both lambdas take it. -/
theorem Outcome.lambdas_closed_sample :
    ∃ lowered, ∃ lambdas : List Lambda,
      (Outcome.ofModules Module.sampleTargets "m" "2020-01-01").result = .ok lowered ∧
      lowered.lambdas = lambdas.map Lambda.source ∧ lambdas.length = 2 ∧
      ∀ l ∈ lambdas, ∃ t ∈ Stmt.nestedIn (Module.definitions Module.sampleTargets),
        l.IsClosed t := by
  have hcount : (Outcome.ofModules Module.sampleTargets "m" "2020-01-01").result.toOption.any
      (fun lowered => lowered.lambdas.length == 2) = true := by decide +kernel
  obtain ⟨lowered, h, hlength⟩ := except_exists_ok_of_any hcount
  obtain ⟨lambdas, htexts, hclosed⟩ := Outcome.lambdas_closed h
  refine ⟨lowered, lambdas, h, htexts, ?_, hclosed⟩
  rw [htexts] at hlength
  simpa using hlength

/-- `a[0]`, as a target. -/
def Expr.sampleElement : Expr :=
  .subscript (.name "a" .load none)
    (.constant ⟨.integer, .number (Binary64.round? 0).get!⟩ none) .store none

/-- `b = a[0] = n`. -/
def Stmt.sampleEscape : Stmt :=
  .assign [.name "b" .store none, .sampleElement] (.name "n" .load none) none

def Module.sampleEscape : List Module :=
  let parameter (x : String) : Parameter := ⟨x, some (.name "int" .load none), none⟩
  [⟨[.functionDef "f" [parameter "a", parameter "b", parameter "n"] [.sampleEscape] none]⟩]

/-- The lambda for `b` takes only `n`, though the statement in it updates the array as well. -/
theorem Outcome.update_escapes :
    ∃ lowered, ∃ l : Lambda, ∃ others reads,
      (Outcome.ofModules Module.sampleEscape "m" "2020-01-01").result = .ok lowered ∧
      l.source ∈ lowered.lambdas ∧
      .sampleEscape ∈ Stmt.nestedIn (Module.definitions Module.sampleEscape) ∧
      l.Renders .sampleEscape others reads ∧ l.inputs = ["n"] ∧ "a" ∈ reads := by
  have hok : (Outcome.ofModules Module.sampleEscape "m" "2020-01-01").result.toOption.any
      (fun lowered => lowered.lambdas.contains
        (Lambda.source ⟨"f__lambda__b_0", ["n"], ["b = a[0] = n"], "b"⟩)) = true := by
    decide +kernel
  obtain ⟨lowered, h, hlambda⟩ := except_exists_ok_of_any hok
  have htext : Stmt.assignSource ([] ++ .name "b" .store none :: [.sampleElement])
      (.name "n" .load none) = .ok "b = a[0] = n" := by decide +kernel
  have hrenders : Lambda.Renders ⟨"f__lambda__b_0", ["n"], ["b = a[0] = n"], "b"⟩ .sampleEscape
      [.sampleElement] _ := .assign htext rfl rfl
  refine ⟨lowered, _, _, _, h, by simpa using hlambda, ?_, hrenders, rfl, ?_⟩
  · exact List.mem_cons_of_mem _ List.mem_cons_self
  · decide +kernel

end ProgramGraph
