import ProgramGraph.Proofs.Literals.Flattening

/-! The literal that an assignment carries is printed like the value that is assigned. -/
namespace ProgramGraph

open ProgramGraph.Graph Lowering

namespace Expr

mutual

/-- An expression that folds has the value that its literal stands for, whatever the variables hold
and the functions give. -/
theorem eval_of_residue (e : Expr) {l : Literal} (hf : e.All isFormed) (hx : e.All isExact)
    (hres : e.residue = .literal l) :
    ∃ v, l.Denotes v ∧ ∀ call σ, e.eval (.standard call) σ = some v := by
  cases e with
  | constant a line =>
    obtain rfl := Residue.literal.inj hres
    obtain ⟨v, hv⟩ := Option.isSome_iff_exists.mp hf.self
    exact ⟨v, Literal.denotes_of_value? hv hx.self, fun _ _ => hv⟩
  | binary op left right line =>
    rw [residue] at hres
    obtain ⟨a, ha, hfold⟩ := Option.bind_eq_some_iff.mp (Residue.eq_some_of_ofFold hres)
    obtain ⟨b, hb, hfold⟩ := Option.bind_eq_some_iff.mp hfold
    rw [Residue.literal?_eq_some] at ha hb
    obtain ⟨va, hva, hleft⟩ := eval_of_residue left hf.binary.1 hx.binary.1 ha
    obtain ⟨vb, hvb, hright⟩ := eval_of_residue right hf.binary.2 hx.binary.2 hb
    have hexact : op.isExact a b = true := by
      have hself := hx.self
      unfold isExact at hself
      dsimp only at hself
      rwa [ha, hb] at hself
    obtain ⟨v, hv, hdenotes⟩ := Literal.foldBinary?_denotes hva hvb hexact hfold
    refine ⟨v, hdenotes, fun call σ => ?_⟩
    rw [eval, hleft, hright]
    exact hv
  | unary op operand line =>
    rw [residue] at hres
    cases ha : operand.residue with
    | literal a =>
      rw [ha, Residue.ofUnary] at hres
      cases hfold : a.foldUnary? op with
      | none =>
        rw [hfold] at hres
        cases hres
      | some b =>
        rw [hfold] at hres
        obtain rfl := Residue.literal.inj hres
        obtain ⟨va, hva, hoperand⟩ := eval_of_residue operand hf.unary hx.unary ha
        obtain ⟨v, hv, hdenotes⟩ := Literal.foldUnary?_denotes hva hfold
        refine ⟨v, hdenotes, fun call σ => ?_⟩
        rw [eval, hoperand]
        exact hv
    | single =>
      rw [ha] at hres
      cases hres
    | several =>
      rw [ha] at hres
      cases hres
  | compare left ops comparators line =>
    rw [residue] at hres
    unfold Residue.ofCompare at hres
    split at hres
    · rename_i op r hrs
      obtain ⟨a, ha, hfold⟩ := Option.bind_eq_some_iff.mp (Residue.eq_some_of_ofFold hres)
      obtain ⟨b, hb, hfold⟩ := Option.bind_eq_some_iff.mp hfold
      rw [Residue.literal?_eq_some] at ha hb
      rw [hb] at hrs
      obtain ⟨va, hva, hleft⟩ := eval_of_residue left hf.compare.1 hx.compare.1 ha
      obtain ⟨vb, hvb, hright⟩ :=
        evalOfEach_of_residue comparators hf.compare.2 hx.compare.2 hrs
      have hexact : a.comparesExactly b = true := by
        have hself := hx.self
        unfold isExact at hself
        dsimp only at hself
        rwa [ha, hrs] at hself
      obtain ⟨t, ht, hdenotes⟩ := Literal.foldCompare?_denotes hva hvb hexact hfold
      refine ⟨.boolean t, hdenotes, fun call σ => ?_⟩
      rw [eval, hleft, hright, List.zip_cons_cons, List.zip_nil_left]
      change (Value.compare op va vb).bind _ = _
      rw [ht]
      rfl
    · cases hres
  | _ => cases hres

theorem evalOfEach_of_residue (es : List Expr) {l : Literal} (hf : ∀ e ∈ es, e.All isFormed)
    (hx : ∀ e ∈ es, e.All isExact) (hres : residueOfEach es = [.literal l]) :
    ∃ v, l.Denotes v ∧ ∀ call σ, evalOfEach (.standard call) σ es = [some v] := by
  cases es with
  | nil => cases hres
  | cons e rest =>
    obtain ⟨he, hrest⟩ := List.cons.inj hres
    obtain ⟨v, hv, heval⟩ := eval_of_residue e (hf e List.mem_cons_self) (hx e List.mem_cons_self) he
    cases rest with
    | nil =>
      refine ⟨v, hv, fun call σ => ?_⟩
      rw [evalOfEach, heval]
      rfl
    | cons _ _ => cases hrest

end

end Expr

/-- The value that a statement assigns. -/
def Stmt.value? : Stmt → Option Expr
  | .assign _ value _ => some value
  | .annAssign _ _ value _ => value
  | _ => none

namespace Lowering

/-- Only a literal that is the only operand becomes a payload. -/
theorem singleLiteral?_of_mem_assignTargets {statement : Except Fault String} {line : Option Int}
    {operands : List Operand} {ts : List Target} {s s' : LoweringState} {f : Fragment}
    {name x : String} {sources : List Source} {d : Domain} {text : String}
    (h : assignTargets statement line operands ts s = .ok (f, s'))
    (hm : .assign name x sources (.literal d text) ∈ f.functions) :
    ∃ l, Operand.singleLiteral? operands = some l ∧ l.domain = d ∧ l.text = text := by
  induction ts generalizing s f with
  | nil =>
    obtain ⟨rfl, rfl⟩ := pure_eq_ok.mp h
    cases hm
  | cons t ts ih =>
    obtain ⟨first, s₁, hfirst, h⟩ := bind_eq_ok.mp h
    obtain ⟨others, s₂, hothers, h⟩ := bind_eq_ok.mp h
    obtain ⟨rfl, rfl⟩ := pure_eq_ok.mp h
    rcases List.mem_append.mp hm with hm | hm
    · obtain ⟨payload, rfl, ⟨l, hl, hpayload, -⟩ | ⟨body, -, hpayload, -⟩⟩ :=
        assignTarget_eq_ok hfirst
      · obtain ⟨-, -, -, hliteral⟩ := Function.assign.inj (List.mem_singleton.mp hm)
        obtain ⟨rfl, rfl⟩ := Payload.literal.inj (hliteral.trans hpayload)
        exact ⟨l, hl, rfl, rfl⟩
      · obtain ⟨-, -, -, hliteral⟩ := Function.assign.inj (List.mem_singleton.mp hm)
        cases hliteral.trans hpayload
    · exact ih hothers hm

end Lowering

theorem Stmt.singleLiteral?_of_mem_lower {t : Stmt} {e : Expr} {s s' : LoweringState} {f : Fragment}
    {name x : String} {sources : List Source} {d : Domain} {text : String}
    (h : t.lower s = .ok (f, s')) (he : t.value? = some e)
    (hm : .assign name x sources (.literal d text) ∈ f.functions) :
    ∃ os v l, e.operands s.versions = .ok (os, v) ∧ Operand.singleLiteral? os = some l ∧
      l.domain = d ∧ l.text = text := by
  cases t with
  | assign targets value line =>
    obtain rfl := Option.some.inj he
    obtain ⟨os, v, written, v', ho, -, hf⟩ := assign_eq_ok h
    obtain ⟨l, hl⟩ := singleLiteral?_of_mem_assignTargets hf hm
    exact ⟨os, v, l, ho, hl⟩
  | annAssign target typeExpr value line =>
    obtain ⟨y, domain, -, ⟨-, rfl, -⟩ | ⟨e', os, v, written, v', he', ho, -, hf⟩⟩ :=
      annAssign_eq_ok h
    · cases hm
    · obtain ⟨l, hl⟩ := singleLiteral?_of_mem_assignTargets hf hm
      have hvalue : e' = e := by
        have hsome : value = some e' := by
          unfold initialValue? at he'
          split at he'
          · cases he'
          · cases he'
          · exact he'
        exact Option.some.inj (hsome.symm.trans he)
      exact ⟨os, v, l, hvalue ▸ ho, hl⟩
  | _ => cases he

/-- An assignment that carries a literal assigns a value of the domain of the literal, and the
literal is how it is printed, if it is not a negative zero. -/
theorem Stmt.payload_prints_value {t : Stmt} {e : Expr} {s s' : LoweringState} {f : Fragment}
    {name x : String} {sources : List Source} {d : Domain} {text : String}
    (h : t.lower s = .ok (f, s')) (he : t.value? = some e) (hformed : e.All Expr.isFormed)
    (htraced : e.All Expr.isTraced) (hexact : e.All Expr.isExact)
    (hm : .assign name x sources (.literal d text) ∈ f.functions) :
    ∃ v, (∀ call σ, e.eval (.standard call) σ = some v) ∧ v.domain = d ∧
      (v.isNegativeZero = false → v.text = text) := by
  obtain ⟨os, versions, l, ho, hl, rfl, rfl⟩ := Stmt.singleLiteral?_of_mem_lower h he hm
  have hflat := e.operands_flatten ho hformed htraced
  rw [hflat.singleLiteral?_eq, Residue.literal?_eq_some] at hl
  obtain ⟨v, hv, heval⟩ := e.eval_of_residue hformed hexact hl
  exact ⟨v, heval, hv.domain, hv.text⟩

/-- `7 // -2`. -/
def Expr.sampleQuotient : Expr :=
  let number (n : Int) : Expr := .constant ⟨.integer, .number (Binary64.round? n).get!⟩ none
  .binary .floorDiv (number 7) (.unary .neg (number 2) none) none

theorem Stmt.payload_prints_value_sample :
    ∃ f s', (Stmt.assign [.name "x" .store none] .sampleQuotient none).lower
        ⟨.ofFunction "f", .empty⟩ = .ok (f, s') ∧
      ∃ v, (∀ call σ, Expr.sampleQuotient.eval (.standard call) σ = some v) ∧
        v.domain = .integer ∧ (v.isNegativeZero = false → v.text = "-4") := by
  obtain ⟨f, s', h, hm⟩ := exists_ok_of_any
    (m := (Stmt.assign [.name "x" .store none] .sampleQuotient none).lower)
    (s := ⟨.ofFunction "f", .empty⟩) (q := fun p => decide (.assign "f__assign__x_0" "x" []
      (.literal .integer "-4") ∈ p.1.functions)) (by decide +kernel)
  exact ⟨f, s', h, Stmt.payload_prints_value h rfl (by decide +kernel) (by decide +kernel)
    (by decide +kernel) (of_decide_eq_true hm)⟩

/-- `-True`. -/
def Expr.sampleOpposite : Expr := .unary .neg (.constant ⟨.boolean, .bool true⟩ none) none

/-- The opposite of a truth value is an integer, and yet the payload is the truth value itself. -/
theorem Stmt.payload_drops_operator :
    ∃ f s', (Stmt.annAssign (.name "x" .store none) (.name "int" .load none)
        (some .sampleOpposite) none).lower ⟨.ofFunction "f", .empty⟩ = .ok (f, s') ∧
      .assign "f__assign__x_0" "x" [] (.literal .boolean "True") ∈ f.functions ∧
      ∀ call σ, Expr.sampleOpposite.eval (.standard call) σ = some (.integer (-1)) := by
  obtain ⟨f, s', h, hm⟩ := exists_ok_of_any
    (m := (Stmt.annAssign (.name "x" .store none) (.name "int" .load none)
      (some .sampleOpposite) none).lower)
    (s := ⟨.ofFunction "f", .empty⟩) (q := fun p => decide (.assign "f__assign__x_0" "x" []
      (.literal .boolean "True") ∈ p.1.functions)) (by decide +kernel)
  exact ⟨f, s', h, of_decide_eq_true hm, fun _ _ => rfl⟩

end ProgramGraph
