import ProgramGraph.Proofs.Plates
import ProgramGraph.Proofs.Supply.Operands

/-! The inputs of a record supply the parameters of the lambda of its function. -/
namespace ProgramGraph

open ProgramGraph.Graph Lowering

/-- The arrays of which an assignment shows two versions: it writes them, then updates an element of
them, and its value reads them. -/
def Stmt.clashes : Stmt → List String
  | .assign targets value _ =>
    (Expr.rewritten [] targets).filter fun x => (value.uses.map Prod.fst).contains x
  | _ => []

/-- All records of a layout, those in the bodies of its functions among them. -/
def Layout.everyRecord : Layout → List Record
  | .nil => []
  | .simple _ made rest => made.records ++ rest.everyRecord
  | .branch _ _ tested thenPart _ elsePart _ decisions rest =>
    tested.records ++ thenPart.everyRecord ++ elsePart.everyRecord ++ decisions.records ++
      rest.everyRecord
  | .loop _ _ _ name inputs body rest =>
    body.everyRecord ++ [.loop name inputs] ++ rest.everyRecord
  | .definition _ _ _ body rest => body.everyRecord ++ rest.everyRecord

theorem Layout.mem_everyRecord {L : Layout} {r : Record} :
    r ∈ L.everyRecord ↔ r ∈ L.records ∨ ∃ p ∈ L.bodies, r ∈ p.2.records := by
  induction L with
  | nil => exact ⟨nofun, fun h => h.elim nofun nofun⟩
  | simple s made rest ih =>
    have hrecords : (simple s made rest).records = made.records ++ rest.records := rfl
    simp only [everyRecord, bodies, hrecords, List.mem_append, ih, or_assoc]
  | branch test condition tested T v E w decisions rest ihT ihE ih =>
    have hrecords : (branch test condition tested T v E w decisions rest).records =
      tested.records ++ T.records ++ E.records ++ decisions.records ++ rest.records := rfl
    simp only [everyRecord, bodies, hrecords, List.mem_append, ihT, ihE, ih]
    grind
  | loop iter index range name inputs body rest ihB ih =>
    have hrecords : (loop iter index range name inputs body rest).records =
      .loop name inputs :: rest.records := rfl
    simp only [everyRecord, bodies, hrecords, List.mem_append, List.mem_cons, ihB, ih]
    grind
  | definition name input vars body rest ihB ih =>
    have hrecords : (definition name input vars body rest).records = rest.records := rfl
    simp only [everyRecord, bodies, hrecords, List.mem_append, List.mem_cons, ihB, ih]
    grind

/-- The statements without blocks of their own, at any depth, each with what it makes. -/
def Layout.made : Layout → List (Stmt × Fragment)
  | .nil => []
  | .simple t made rest => (t, made) :: rest.made
  | .branch _ _ _ thenPart _ elsePart _ _ rest => thenPart.made ++ elsePart.made ++ rest.made
  | .loop _ _ _ _ _ body rest => body.made ++ rest.made
  | .definition _ _ _ body rest => body.made ++ rest.made

theorem Lowers.mem_nestedIn_of_made {block : List Stmt} {s s' : LoweringState} {L : Layout}
    (h : Lowers block s L s') {t : Stmt} {made : Fragment} (ht : (t, made) ∈ L.made) :
    t ∈ Stmt.nestedIn block := by
  induction h with
  | nil => cases ht
  | assign _ _ ih | annAssign _ _ ih | effect _ _ ih =>
    rw [Layout.made, List.mem_cons] at ht
    rw [Stmt.nestedIn, Stmt.nested, List.mem_append, List.mem_singleton]
    exact ht.imp (fun he => (Prod.mk.inj he).1) ih
  | branch _ _ _ _ _ ihT ihE ih =>
    simp only [Layout.made, List.mem_append] at ht
    simp only [Stmt.nestedIn, Stmt.nested, List.mem_append, List.mem_cons]
    exact ht.imp (fun ht => .inr (ht.imp ihT ihE)) ih
  | loop _ _ _ _ _ ihB ih =>
    simp only [Layout.made, List.mem_append] at ht
    simp only [Stmt.nestedIn, Stmt.nested, List.mem_append, List.mem_cons]
    exact ht.imp (fun ht => .inr (.inl (ihB ht))) ih
  | definition _ _ _ _ _ _ ihB ih =>
    simp only [Layout.made, List.mem_append] at ht
    simp only [Stmt.nestedIn, Stmt.nested, List.mem_append, List.mem_cons]
    exact ht.imp (fun ht => .inr (ihB ht)) ih

/-- A record names a function, and if the function refers to a lambda, its inputs are the variables
of the function, in order and each once unless there is a clash. -/
def Answers (clash : Function → Option Int → String → Prop) (f : Function) (r : Record) : Prop :=
  f.isContainer = false ∧ ∃ output input, r = .value f.name output input ∧
    ∀ name target sources lambda line, f = .assign name target sources (.lambda lambda line) →
      distinct r.variables = f.sourceVariables ∧
        (r.variables = f.sourceVariables ∨ clash f line output.name)

/-- Functions with lambdas, and the records that name functions. -/
structure Answered (clash : Function → Option Int → String → Prop) (fs : List Function)
    (rs : List Record) : Prop where
  named : ∀ {name output input}, Record.value name output input ∈ rs →
    ∃ f ∈ fs, Answers clash f (.value name output input)
  recorded : ∀ f ∈ fs, f.lambda?.isSome → ∃ r ∈ rs, Answers clash f r

namespace Answered
variable {clash : Function → Option Int → String → Prop} {fs gs : List Function}
  {rs qs : List Record}

theorem append (h : Answered clash fs rs) (h' : Answered clash gs qs) :
    Answered clash (fs ++ gs) (rs ++ qs) where
  named hr := by
    rcases List.mem_append.mp hr with hr | hr
    · obtain ⟨f, hf, ha⟩ := h.named hr
      exact ⟨f, List.mem_append_left _ hf, ha⟩
    · obtain ⟨f, hf, ha⟩ := h'.named hr
      exact ⟨f, List.mem_append_right _ hf, ha⟩
  recorded f hf hl := by
    rcases List.mem_append.mp hf with hf | hf
    · obtain ⟨r, hr, ha⟩ := h.recorded f hf hl
      exact ⟨r, List.mem_append_left _ hr, ha⟩
    · obtain ⟨r, hr, ha⟩ := h'.recorded f hf hl
      exact ⟨r, List.mem_append_right _ hr, ha⟩

theorem of_forall₂ (h : List.Forall₂ (Answers clash) fs rs) : Answered clash fs rs where
  named hr := exists_of_mem_right h hr
  recorded _ hf _ := exists_of_mem_right h.flip hf

/-- Functions without a lambda beside records that name no function. -/
theorem silent (hfs : ∀ f ∈ fs, f.lambda? = none)
    (hrs : ∀ name output input, Record.value name output input ∉ rs) : Answered clash fs rs where
  named hr := absurd hr (hrs _ _ _)
  recorded f hf hl := by
    rw [hfs f hf] at hl
    cases hl

end Answered

/-- A clash may be told by the function as well. -/
theorem forall₂_answers_imp {clash clash' : Function → Option Int → String → Prop}
    {fs : List Function} {rs : List Record} (h : List.Forall₂ (Answers clash) fs rs)
    (hc : ∀ f ∈ fs, ∀ line x, clash f line x → clash' f line x) :
    List.Forall₂ (Answers clash') fs rs := by
  induction h with
  | nil => exact .nil
  | cons ha _ ih =>
    obtain ⟨hf, hrest⟩ := List.forall_mem_cons.mp hc
    obtain ⟨hcontainer, output, input, hr, hvariables⟩ := ha
    refine .cons ⟨hcontainer, output, input, hr, fun _ _ _ _ _ he => ?_⟩ (ih hrest)
    exact (hvariables _ _ _ _ _ he).imp_right fun h => h.imp_right (hf _ _)

namespace Lowering
variable {clash : Function → Option Int → String → Prop} {line : Option Int}
  {s s' : LoweringState} {f : Fragment}

/-- A function with the record that is made beside it. -/
theorem answers_of_inputs {operands : List Operand} {carried : List Reference} {name : String}
    {output : Reference} {payload : Payload}
    (hpayload : ∀ lambda own, payload = .lambda lambda own → own = line)
    (h : Operand.OneVersion operands carried ∨ ∀ f, clash f line output.name) :
    Answers clash (.assign name output.name (Operand.sources operands carried) payload)
      (.value name output (Operand.inputs operands carried)) := by
  refine ⟨rfl, output, _, rfl, fun _ _ _ lambda own he => ?_⟩
  obtain ⟨-, -, -, rfl⟩ := Function.assign.inj he
  obtain rfl := hpayload lambda own rfl
  rw [Record.variables_value]
  exact ⟨Operand.distinct_inputs operands carried,
    h.imp Operand.OneVersion.inputs_eq fun h => h _⟩

theorem assignTargets_answers {statement : Except Fault String} {operands : List Operand}
    {ts : List Target} (h : assignTargets statement line operands ts s = .ok (f, s'))
    (ht : ∀ t ∈ ts, Operand.OneVersion operands t.carried.toList ∨
      ∀ f, clash f line t.reference.name) :
    List.Forall₂ (Answers clash) f.functions f.records := by
  refine assignTargets_induction
    (motive := fun _ f _ => List.Forall₂ (Answers clash) f.functions f.records) h
    (fun _ => .nil) (fun h h' => List.rel_append h h') fun t hmem s s' f h => ?_
  obtain ⟨payload, rfl, hpayload⟩ := assignTarget_eq_ok h
  refine .cons (answers_of_inputs ?_ (ht t hmem)) .nil
  intro lambda own he
  rcases hpayload with ⟨l, -, rfl, -⟩ | ⟨body, -, rfl, -⟩
  · cases he
  · exact (Payload.lambda.inj he).2.symm

theorem assign_answers {targets : List Expr} {value : Expr}
    (h : assign targets value line s = .ok (f, s')) (hl : ∀ u ∈ value.uses, u.2 = .load) :
    List.Forall₂ (Answers fun _ own x =>
      own = line ∧ x ∈ (Stmt.assign targets value line).clashes) f.functions f.records := by
  obtain ⟨operands, v, written, v', ho, ht, hf⟩ := assign_eq_ok h
  obtain ⟨hreads, hleaves⟩ := Expr.operands_reads value ho hl
  have hstart : ∀ x ∉ ([] : List String), v.current x = s.versions.current x :=
    fun x _ => hreads.current x
  have hcarried := Expr.carried_of_targets ht hstart
  refine assignTargets_answers hf fun t hmem => ?_
  by_cases hclash : t.reference.name ∈ (Stmt.assign targets value line).clashes
  · exact .inr fun _ => ⟨rfl, hclash⟩
  · refine .inl (Operand.oneVersion_of_leavesAt hleaves fun r hr => ?_)
    obtain ⟨hname, hindex⟩ := hcarried t hmem r hr
    refine hindex.imp_right fun hrewritten hused => hclash ?_
    rw [← hname]
    exact List.mem_filter.mpr ⟨hrewritten, by simpa using ⟨_, hused⟩⟩

theorem annAssign_answers {target typeExpr : Expr} {value : Option Expr}
    (h : annAssign target typeExpr value line s = .ok (f, s'))
    (hl : ∀ u ∈ Expr.usesOfEach (initialValue? value).toList, u.2 = .load) :
    List.Forall₂ (Answers clash) f.functions f.records := by
  obtain ⟨x, d, ⟨access, own, rfl⟩, ⟨-, rfl, -⟩ | h⟩ := annAssign_eq_ok h
  · exact .nil
  · obtain ⟨e, operands, v, written, v', he, ho, ht, hf⟩ := h
    have hle : ∀ u ∈ e.uses, u.2 = .load := by
      rw [he] at hl
      simpa [Expr.usesOfEach] using hl
    have hleaves := (Expr.operands_reads e ho hle).2
    obtain ⟨_, _, -, ht⟩ := bind_eq_ok.mp ht
    obtain ⟨rfl, -⟩ := pure_eq_ok.mp ht
    refine assignTargets_answers hf fun t hmem => .inl ?_
    obtain rfl := List.mem_singleton.mp hmem
    exact Operand.oneVersion_of_leavesAt hleaves nofun

theorem condition_answers {test : Expr} {output : Reference}
    (h : condition test line s = .ok ((f, output), s')) (hl : ∀ u ∈ test.uses, u.2 = .load) :
    List.Forall₂ (Answers clash) f.functions f.records := by
  obtain ⟨operands, v, text, ho, -, -, rfl, -⟩ := condition_eq_ok h
  have hleaves := (Expr.operands_reads test ho hl).2
  have hone : Operand.OneVersion operands (none : Option Reference).toList :=
    Operand.oneVersion_of_leavesAt hleaves nofun
  exact .cons (answers_of_inputs (fun _ _ he => (Payload.lambda.inj he).2.symm) (.inl hone)) .nil

theorem mergeVariables_answers {test : Reference} {start thenExit elseExit : Table Int}
    {names : List String} (h : mergeVariables test start thenExit elseExit names s = .ok (f, s')) :
    List.Forall₂ (Answers clash) f.functions f.records := by
  refine mergeVariables_induction
    (motive := fun _ f _ => List.Forall₂ (Answers clash) f.functions f.records) h
    (fun _ => .nil) (fun h h' => List.rel_append h h') fun x _ s s' f h => ?_
  rcases mergeVariable_eq_ok h with ⟨-, rfl, -⟩ | ⟨-, -, rfl, -⟩ | ⟨-, a, b, -, rfl, -⟩
  · exact .nil
  · exact .nil
  · exact .cons ⟨rfl, _, _, rfl, nofun⟩ .nil

end Lowering

/-- All functions of a layout with lambdas are answered by records somewhere in it. -/
theorem Lowers.answered {clash : Function → Option Int → String → Prop} {block : List Stmt}
    {s s' : LoweringState} {L : Layout} (h : Lowers block s L s')
    (hl : ∀ u ∈ Stmt.usesOf block, u.2 = .load)
    (hc : ∀ m ∈ L.made, ∀ f ∈ m.2.functions, ∀ x ∈ m.1.clashes, clash f m.1.line x) :
    Answered clash L.functions L.everyRecord := by
  induction h with
  | nil => exact .silent nofun nofun
  | assign hmade _ ih =>
    obtain ⟨hown, hrest⟩ := List.forall_mem_append.mp hl
    obtain ⟨hclash, hclashes⟩ := List.forall_mem_cons.mp hc
    have hfirst : List.Forall₂ (Answers clash) _ _ :=
      forall₂_answers_imp (assign_answers hmade hown) fun f hf _ x ⟨he, hx⟩ => he ▸ hclash f hf x hx
    exact (Answered.of_forall₂ hfirst).append (ih hrest hclashes)
  | annAssign hmade _ ih =>
    obtain ⟨hown, hrest⟩ := List.forall_mem_append.mp hl
    obtain ⟨-, hclashes⟩ := List.forall_mem_cons.mp hc
    exact (Answered.of_forall₂ (annAssign_answers hmade hown)).append (ih hrest hclashes)
  | effect hmade _ ih =>
    obtain ⟨-, hrest⟩ := List.forall_mem_append.mp hl
    obtain ⟨-, hclashes⟩ := List.forall_mem_cons.mp hc
    obtain ⟨callee, input, v, rfl, -⟩ := effect_eq_call hmade
    have hcall : Answered clash [] [.call callee input] := .silent nofun (by simp)
    exact hcall.append (ih hrest hclashes)
  | branch htest _ _ hmerge _ ihT ihE ih =>
    obtain ⟨hown, hrest⟩ := List.forall_mem_append.mp hl
    obtain ⟨htests, helses⟩ := List.forall_mem_append.mp hown
    obtain ⟨htest', hthens⟩ := List.forall_mem_append.mp htests
    obtain ⟨hbranch, hclashes⟩ := List.forall_mem_append.mp hc
    obtain ⟨hclashT, hclashE⟩ := List.forall_mem_append.mp hbranch
    have hcondition : Answered clash _ _ := .of_forall₂ (condition_answers htest htest')
    have htested := hcondition.append (ihT hthens hclashT)
    have hbranches := htested.append (ihE helses hclashE)
    have hmerged := hbranches.append (.of_forall₂ (mergeVariables_answers hmerge))
    exact hmerged.append (ih hrest hclashes)
  | loop _ _ _ _ _ ihB ih =>
    obtain ⟨hown, hrest⟩ := List.forall_mem_append.mp hl
    obtain ⟨-, hbody⟩ := List.forall_mem_append.mp hown
    obtain ⟨hclashB, hclashes⟩ := List.forall_mem_append.mp hc
    have hcall (name inputs index range) (B : Layout) :
        Answered clash [.loopPlate name inputs index range B.records] [.loop name inputs] :=
      .silent (List.forall_mem_singleton.mpr rfl) (by simp)
    exact ((ihB hbody hclashB).append (hcall _ _ _ _ _)).append (ih hrest hclashes)
  | @definition name parameters body line rest s s₁ s₂ s₃ r input vars B L _ _ _ _ _ _ ihB ih =>
    obtain ⟨hown, hrest⟩ := List.forall_mem_append.mp hl
    obtain ⟨hclashB, hclashes⟩ := List.forall_mem_append.mp hc
    have hcontainer : Answered clash [.container name input vars B.records] [] :=
      .silent (List.forall_mem_singleton.mpr rfl) nofun
    have hinner := (ihB hown hclashB).append hcontainer
    rw [List.append_nil] at hinner
    exact hinner.append (ih hrest hclashes)

/-- The statement that a function comes from shows two versions of the array. -/
def Module.Clashes (ms : List Module) (L : Layout) (f : Function) (line : Option Int) (x : String) :
    Prop :=
  ∃ t ∈ Stmt.nestedIn (Module.definitions ms), t.line = line ∧ x ∈ t.clashes ∧
    ∃ made, (t, made) ∈ L.made ∧ f ∈ made.functions

/-- The records of a function beside its lambda: there is one, and in each the variables of the
inputs are the parameters, in order, or else the array that it updates is an input twice. -/
structure Graph.Document.Supplies (d : Document) (f : String) (l : Lambda) (clash : String → Prop) :
    Prop where
  recorded : ∃ g ∈ d.functions, ∃ output input, .value f output input ∈ g.body
  same : ∀ g ∈ d.functions, ∀ output input, .value f output input ∈ g.body →
    distinct (Record.value f output input).variables = l.inputs
  inOrder : ∀ g ∈ d.functions, ∀ output input, .value f output input ∈ g.body →
    (Record.value f output input).variables = l.inputs ∨ clash output.name

theorem Module.LaidOut.supplies {ms : List Module} {d : Document} {L : Layout} {r : Registry}
    {clash : Function → Option Int → String → Prop} {f target lambda : String}
    {sources : List Source} {line : Option Int} {l : Lambda} (hd : Module.LaidOut ms d L r)
    (ha : Answered clash L.functions L.everyRecord)
    (hf : .assign f target sources (.lambda lambda line) ∈ d.functions)
    (hl : RefersTo (.assign f target sources (.lambda lambda line)) l) :
    d.Supplies f l (clash (.assign f target sources (.lambda lambda line)) line) := by
  rw [hd.functions] at hf
  have hnone : L.records = [] := by
    have hitems := hd.lowers.items_of_definitions fun t ht => (List.mem_filter.mp ht).2
    rw [← L.items_record, hitems, List.map_nil]
  have hsupply : ∀ g ∈ d.functions, ∀ output input, .value f output input ∈ g.body →
      distinct (Record.value f output input).variables = l.inputs ∧
        ((Record.value f output input).variables = l.inputs ∨
          clash (.assign f target sources (.lambda lambda line)) line output.name) := by
    intro g hg output input hr
    have hrecord : Record.value f output input ∈ L.everyRecord := by
      rcases hd.body_cases hg with hnil | ⟨B, hB⟩
      · rw [hnil] at hr
        cases hr
      · rw [Layout.body_of_mem_bodies hB] at hr
        exact Layout.mem_everyRecord.mpr (.inr ⟨_, hB, hr⟩)
    obtain ⟨f', hf', hcontainer, output', input', he, hown⟩ := ha.named hrecord
    obtain ⟨hn, rfl, rfl⟩ := Record.value.inj he
    obtain rfl : f' = .assign f target sources (.lambda lambda line) :=
      hd.lowers.named.eq_of_name_eq hf' hf hcontainer rfl hn.symm
    rw [hl.inputs]
    exact hown _ _ _ _ _ rfl
  constructor
  case recorded =>
    obtain ⟨record, hrecord, -, output, input, rfl, -⟩ := ha.recorded _ hf rfl
    rw [Layout.mem_everyRecord, hnone] at hrecord
    obtain ⟨⟨g, B⟩, hB, hrecord⟩ := hrecord.resolve_left List.not_mem_nil
    refine ⟨g, ?_, output, input, ?_⟩
    · rw [hd.functions]
      exact Layout.mem_functions_of_mem_bodies hB
    · rw [Layout.body_of_mem_bodies hB]
      exact hrecord
  case same => exact fun g hg output input hr => (hsupply g hg output input hr).1
  case inOrder => exact fun g hg output input hr => (hsupply g hg output input hr).2

/-- Every function with a lambda is named by a record whose inputs supply the parameters of the
lambda, in order unless the statement that it comes from shows an array twice. -/
theorem Outcome.inputs_supply_parameters {ms : List Module} {name date : String} {lowered : Lowered}
    (h : (Outcome.ofModules ms name date).result = .ok lowered)
    (hl : Stmt.OnlyLoads (Module.definitions ms)) :
    ∃ L r, Module.LaidOut ms lowered.document L r ∧
      ∃ lambdas : List Lambda, lowered.lambdas = lambdas.map Lambda.source ∧
        (lambdas.map Lambda.name).Nodup ∧
        ∀ f target sources lambda line,
          .assign f target sources (.lambda lambda line) ∈ lowered.document.functions →
          ∃ l ∈ lambdas, l.name = lambda ∧ lowered.document.Supplies f l
            (Module.Clashes ms L (.assign f target sources (.lambda lambda line)) line) := by
  obtain ⟨L, r, hL, hsink⟩ := Outcome.layout_of_ok h
  obtain ⟨lambdas, htexts, hrefers, hnames⟩ := hL.lowers.rendered
  have hall : r.sink = lambdas.map Lambda.source := htexts
  have hanswered : Answered (Module.Clashes ms L) L.functions L.everyRecord :=
    hL.lowers.answered hl fun (t, made) hm f hf x hx =>
      ⟨t, hL.lowers.mem_nestedIn_of_made hm, rfl, hx, made, hm, hf⟩
  refine ⟨L, r, hL, lambdas, hsink.trans hall, hnames.nodup,
    fun f target sources lambda line hf => ?_⟩
  have hown : .assign f target sources (.lambda lambda line) ∈
      L.functions.filter (·.lambda?.isSome) := by
    rw [hL.functions] at hf
    exact List.mem_filter.mpr ⟨hf, rfl⟩
  obtain ⟨l, hmem, hrefer⟩ := exists_of_mem_right hrefers.flip hown
  exact ⟨l, hmem, (Option.some.inj hrefer.name).symm, hL.supplies hanswered hf hrefer⟩

/-- `b = a[0] = a[1] + b`. -/
def Module.sampleTargets : List Module :=
  let number (n : Int) : Expr := .constant ⟨.integer, .number (Binary64.round? n).get!⟩ none
  let name (x : String) (access : Access) : Expr := .name x access none
  let element (n : Int) (access : Access) : Expr :=
    .subscript (name "a" .load) (number n) access none
  [⟨[.functionDef "f" [⟨"a", some (name "int" .load), none⟩, ⟨"b", some (name "int" .load), none⟩]
    [.assign [name "b" .store, element 0 .store]
      (.binary .add (element 1 .load) (name "b" .load) none) none] none]⟩]

/-- Both targets take the versions from before the statement. -/
theorem Outcome.inputs_supply_parameters_sample :
    ∃ lowered, ∃ lambdas : List Lambda,
      (Outcome.ofModules Module.sampleTargets "m" "2020-01-01").result = .ok lowered ∧
      Stmt.OnlyLoads (Module.definitions Module.sampleTargets) ∧
      lowered.lambdas = lambdas.map Lambda.source ∧
      ∃ l ∈ lambdas, l.name = "f__lambda__b_0" ∧
        lowered.document.Supplies "f__assign__b_0" l fun _ => False := by
  have hok : (Outcome.ofModules Module.sampleTargets "m" "2020-01-01").result.toOption.any
      (fun lowered => lowered.document.functions.contains (.assign "f__assign__b_0" "b"
        [.var "a", .var "b"] (.lambda "f__lambda__b_0" none))) = true := by decide +kernel
  have hloads : Stmt.OnlyLoads (Module.definitions Module.sampleTargets) := by decide +kernel
  have hclashes : (Stmt.nestedIn (Module.definitions Module.sampleTargets)).all
      (fun t => t.clashes.isEmpty) = true := by decide +kernel
  obtain ⟨lowered, h, hf⟩ := except_exists_ok_of_any hok
  obtain ⟨L, r, -, lambdas, htexts, -, hsupplies⟩ := Outcome.inputs_supply_parameters h hloads
  obtain ⟨l, hl, hn, hsupply⟩ := hsupplies _ _ _ _ _ (by simpa using hf)
  refine ⟨lowered, lambdas, h, hloads, htexts, l, hl, hn, hsupply.recorded, hsupply.same, ?_⟩
  intro g hg output input hr
  refine (hsupply.inOrder g hg output input hr).imp_right fun ⟨t, ht, _, hx, _⟩ => ?_
  have hnone := List.all_eq_true.mp hclashes t ht
  rw [List.isEmpty_iff.mp hnone] at hx
  cases hx

/-- `a[0] = a[1] = a[2]`. -/
def Module.sampleUpdates : List Module :=
  let number (n : Int) : Expr := .constant ⟨.integer, .number (Binary64.round? n).get!⟩ none
  let element (n : Int) (access : Access) : Expr :=
    .subscript (.name "a" .load none) (number n) access none
  [⟨[.functionDef "f" [⟨"a", some (.name "int" .load none), none⟩]
    [.assign [element 0 .store, element 1 .store] (element 2 .load) none] none]⟩]

/-- The second element is updated in the array that the first update gave, while the value shows the
array from before: two inputs for one parameter. -/
theorem Outcome.update_exposes_two_versions :
    Stmt.OnlyLoads (Module.definitions Module.sampleUpdates) ∧
    ∃ lowered, (Outcome.ofModules Module.sampleUpdates "m" "2020-01-01").result = .ok lowered ∧
      .assign "f__assign__a_1" "a" [.var "a"] (.lambda "f__lambda__a_1" none) ∈
        lowered.document.functions ∧
      Lambda.source ⟨"f__lambda__a_1", ["a"], ["a[0] = a[1] = a[2]"], "a"⟩ ∈ lowered.lambdas ∧
      ∃ g ∈ lowered.document.functions,
        .value "f__assign__a_1" ⟨"a", 2⟩ [.ref ⟨"a", 1⟩, .ref ⟨"a", 0⟩] ∈ g.body := by
  have hok : (Outcome.ofModules Module.sampleUpdates "m" "2020-01-01").result.toOption.any
      (fun lowered => lowered.document.functions.contains (.assign "f__assign__a_1" "a"
          [.var "a"] (.lambda "f__lambda__a_1" none)) &&
        lowered.lambdas.contains
          (Lambda.source ⟨"f__lambda__a_1", ["a"], ["a[0] = a[1] = a[2]"], "a"⟩) &&
        lowered.document.functions.any (·.body.contains
          (.value "f__assign__a_1" ⟨"a", 2⟩ [.ref ⟨"a", 1⟩, .ref ⟨"a", 0⟩]))) = true := by
    decide +kernel
  obtain ⟨lowered, h, hall⟩ := except_exists_ok_of_any hok
  simp only [Bool.and_eq_true, List.contains_iff_mem, List.any_eq_true] at hall
  obtain ⟨⟨hf, hlambda⟩, g, hg, hrecord⟩ := hall
  exact ⟨by decide +kernel, lowered, h, hf, hlambda, g, hg, hrecord⟩

end ProgramGraph
