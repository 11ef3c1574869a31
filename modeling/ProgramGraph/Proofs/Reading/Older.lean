import ProgramGraph.Lowering.Program
import ProgramGraph.Proofs.Reading.Alike
import ProgramGraph.Proofs.Reading.Blame

/-! Older data trees and their newer forms are read alike. -/
namespace ProgramGraph

open Reading Shape

namespace Reading
variable {j j' : Json} {place place' : Place} {type : String}

theorem alike_constant (hvalue : j'.member? "value" = j.member? "value")
    (hdeclared : j'.member? "_valueType" = j.member? "_valueType") (line : Option Int) :
    Alike Eq (constant j place line) (constant j' place' line) := by
  refine .bind (alike_field hvalue) fun value _ _ _ hv => ?_
  refine .bind (alike_field hdeclared) fun declared _ _ _ hd => ?_
  subst hv hd
  cases value with
  | none => exact .pure _
  | some v =>
    cases declared with
    | none => exact .pure _
    | some kind =>
      dsimp only
      cases Domain.ofKeyword? kind with
      | none => exact .pure _
      | some d =>
        dsimp only
        split <;> exact .pure _

theorem constant_asConstant {v : Json} {s : Scalar} (hv : constantValue (some v) = .ok (some s))
    (line : Option Int) :
    constant (j.asConstant v) place line = .ok (.constant ⟨inferredDomain s, s⟩ line) := by
  have hvalue : field (j.asConstant v) place "value" constantValue = .ok (some s) := field_eq hv
  have hdeclared :
      field (j.asConstant v) place "_valueType" (Shape.optional string) = .ok none := by
    apply field_eq
    rw [Json.member?_asConstant_valueType]
    rfl
  refine except_bind_eq_ok.mpr ⟨_, hvalue, ?_⟩
  exact except_bind_eq_ok.mpr ⟨_, hdeclared, rfl⟩

/-- An older literal is read as its newer form. -/
theorem alike_modernLiteral (hj : j.literalFits = true) (htype : j.nodeType? = some type)
    (holder : modernClass type ≠ type) (place place' : Place) :
    Alike Eq (readExpr j place) (readExpr j.modernLiteral place') := by
  rw [readExpr, readExpr]
  refine .bind (alike_header (g := modernClass) (Json.nodeType?_modernLiteral hj)
    Json.member?_modernLiteral_lineno) fun h h' hh _ hR => ?_
  subst hR
  have hclass : h.type = type := Option.some.inj ((nodeType?_of_header hh).symm.trans htype)
  dsimp only
  rw [hclass]
  rcases eq_of_modernClass_ne holder with rfl | rfl | rfl
  · obtain ⟨x, hx, hmodern⟩ := Json.exists_number hj htype
    have hn : field j place "n" number = .ok x := field_eq (by rw [hx]; rfl)
    have hmodern' : constant (j.asConstant (.number x)) place' h.line =
        .ok (.constant ⟨numberDomain x, .number x⟩ h.line) :=
      constant_asConstant (s := .number x) rfl h.line
    rw [hmodern]
    exact .of_ok (except_bind_eq_ok.mpr ⟨x, hn, rfl⟩) hmodern'
  · obtain ⟨s, hs, hmodern⟩ := Json.exists_string hj htype
    have hmodern' : constant (j.asConstant (.string s)) place' h.line =
        .ok (.constant ⟨.string, .string s⟩ h.line) :=
      constant_asConstant (s := .string s) rfl h.line
    rw [hmodern]
    exact .of_ok (except_bind_eq_ok.mpr ⟨s, field_string hs, rfl⟩) hmodern'
  · rw [Json.modernLiteral_nameConstant htype]
    exact alike_constant ((Json.member?_retyped _ _).trans (congrFun Option.map_id _))
      ((Json.member?_retyped _ _).trans (congrFun Option.map_id _)) h.line

/-- A slice that is no `Index` is the index. -/
theorem unwrapIndex_bind {α : Type} {slice : Part j} (h : slice.1.nodeType? ≠ some "Index")
    (k : Expr → Result α) :
    (unwrapIndex slice place >>= fun x => readExpr x.1.1 x.2 >>= k) =
      readExpr slice.1 place >>= k := by
  rw [unwrapIndex]
  cases hh : settle place (header slice.1) with
  | error e =>
    rw [readExpr, hh]
    rfl
  | ok header =>
    have hclass : header.type ≠ "Index" := by
      rintro he
      rw [nodeType?_of_header hh, he] at h
      exact h rfl
    change ((if _ = "Index" then _ else _) >>= _) = _
    rw [if_neg hclass]
    rfl

theorem exists_unwrapIndex {slice : Part j} {v : Json} (htype : slice.1.nodeType? = some "Index")
    (hline : Wanted.line.fits (slice.1.member? "lineno") = true)
    (hv : slice.1.member? "value" = some v) (place : Place) :
    ∃ p : Part j, unwrapIndex slice place = .ok (p, place.key "value") ∧ p.1 = v := by
  obtain ⟨p, hp, rfl⟩ :
      ∃ p : Part slice.1, required slice.1 place "value" = .ok p ∧ p.1 = v :=
    exists_required (P := (· = v)) ⟨v, hv, rfl⟩
  rcases tests_optional_int (slice.1.member? "lineno") with ⟨line, hl⟩ | ⟨-, hfits⟩
  · have hh : settle place (header slice.1) = .ok ⟨"Index", line⟩ := by
      rw [header_eq_ok_iff (h := ⟨"Index", line⟩) |>.mpr ⟨htype, hl⟩]
      rfl
    refine ⟨⟨p.1, Nat.lt_trans p.2 slice.2⟩, except_bind_eq_ok.mpr ⟨_, hh, ?_⟩, rfl⟩
    exact except_bind_eq_ok.mpr ⟨p, hp, rfl⟩
  · rw [hline] at hfits
    cases hfits

theorem exists_unwrapIndex_error {slice : Part j} (htype : slice.1.nodeType? = some "Index")
    (hv : slice.1.member? "value" = none) (place : Place) :
    ∃ e, unwrapIndex slice place = .error e := by
  cases hu : unwrapIndex slice place with
  | error e => exact ⟨e, rfl⟩
  | ok x =>
    rcases unwrapIndex_eq_ok hu with ⟨-, hmember, -⟩ | ⟨hother, -, -⟩
    · rw [hv] at hmember
      cases hmember
    · exact absurd htype hother

/-- An index is read as its newer form, which is not wrapped. -/
theorem alike_unwrapIndex {α : Type} {slice : Part j} {slice' : Part j'}
    (h : Json.Renewed .index slice.1 slice'.1)
    (ih : ∀ p : Part j, p.1.hasModern Wanted.line.fits .expression = true → ∀ q q',
      Alike Eq (readExpr p.1 q) (readExpr (p.1.modern .expression) q'))
    {k k' : Expr → Result α} (hk : ∀ e, Alike Eq (k e) (k' e)) :
    Alike Eq (unwrapIndex slice place >>= fun x => readExpr x.1.1 x.2 >>= k)
      (unwrapIndex slice' place' >>= fun x => readExpr x.1.1 x.2 >>= k') := by
  obtain ⟨hmodern, hslice⟩ := h
  by_cases htype : slice.1.nodeType? = some "Index"
  · have hindex := Json.of_everyNode hmodern htype
    rw [Json.hasModernForm, if_pos htype, Bool.and_eq_true] at hindex
    cases hv : slice.1.member? "value" with
    | none =>
      obtain ⟨htype', hv'⟩ := Json.member?_modern_bare htype hv
      rw [← hslice] at htype' hv'
      obtain ⟨e, he⟩ := exists_unwrapIndex_error htype hv place
      obtain ⟨e', he'⟩ := exists_unwrapIndex_error htype' hv' place'
      rw [he, he']
      exact .error e e'
    | some v =>
      -- Here the line counts: without a good one the older index alone is refused.
      obtain ⟨p, hp, rfl⟩ := exists_unwrapIndex htype hindex.1 hv place
      have hexpr : p.1.hasModern Wanted.line.fits .expression = true := by
        have := Json.everyInSlot_of_everyNode hmodern hv
        rwa [htype] at this
      rw [Json.modern_wrapped htype hv] at hslice
      have hinner : p.1.nodeType? ≠ some "Index" := by
        have := hindex.2
        rw [hv] at this
        simpa using this
      have hslice' : slice'.1.nodeType? ≠ some "Index" := by
        rw [hslice]
        exact Json.nodeType?_modern_ne_index hexpr hinner
      rw [hp, unwrapIndex_bind hslice', hslice]
      change Alike Eq (readExpr p.1 _ >>= k) _
      refine .bind (ih p hexpr _ _) fun e e' _ _ he => ?_
      rw [he]
      exact hk e'
  · rw [Json.modern_index htype] at hslice
    have hexpr := Json.hasModern_index htype hmodern
    have hslice' : slice'.1.nodeType? ≠ some "Index" := by
      rw [hslice]
      exact Json.nodeType?_modern_ne_index hexpr htype
    rw [unwrapIndex_bind htype, unwrapIndex_bind hslice', hslice]
    refine .bind (ih slice hexpr _ _) fun e e' _ _ he => ?_
    rw [he]
    exact hk e'

/-- The places are any two, since those below a wrapped index differ. -/
theorem alike_readExpr (j : Json) (hj : j.hasModern Wanted.line.fits .expression = true)
    (place place' : Place) :
    Alike Eq (readExpr j place) (readExpr (j.modern .expression) place') := by
  by_cases hnewer : ∀ type, j.nodeType? = some type → modernClass type = type
  case neg =>
    obtain ⟨type, htype⟩ := not_forall.mp hnewer
    obtain ⟨htype, holder⟩ := Classical.not_imp.mp htype
    rw [Json.modern_of_older htype holder]
    -- An older literal has another class than its newer form, so it is read along another branch.
    exact alike_modernLiteral (Json.literalFits_of_hasModern hj htype) htype holder place place'
  rw [Json.modern_of_newer hnewer]
  have hj' := Json.Renewal.mapBelow hj
  rw [readExpr, readExpr]
  refine .bind (alike_header (g := id) ?_ (Json.member?_mapBelow_of_notMem (by decide)))
    fun h h' hh _ hR => ?_
  · rw [Json.nodeType?_mapBelow, Option.map_id_fun, id]
  subst hR
  rw [nodeType?_of_header hh, Option.getD_some] at hj'
  dsimp only [id]
  generalize j.mapBelow Json.modernNode .expression = j' at *
  have hread (p : Part j) (p' : Part j') (h : Json.Renewed .expression p.1 p'.1) (q q' : Place) :
      Alike Eq (readExpr p.1 q) (readExpr p'.1 q') := by
    rw [h.2]
    exact alike_readExpr p.1 h.1 q q'
  split
  case h_1 htype | h_2 htype =>
    rw [htype] at hj'
    exact alike_constant (hj'.member_eq fun _ => rfl) (hj'.member_eq fun _ => rfl) _
  case h_3 htype | h_4 htype =>
    exact absurd (hnewer _ (nodeType?_of_header hh)) (by rw [htype]; decide)
  case h_5 htype =>
    rw [htype] at hj'
    refine .bind (hj'.field rfl) fun id id' _ _ hid => ?_
    rw [hid, hj'.access rfl]
    exact .pure _
  case h_6 htype =>
    rw [htype] at hj'
    refine .bind (hj'.required rfl) fun value value' _ _ hvalue => ?_
    refine .bind (hj'.field rfl) fun attr attr' _ _ hattr => ?_
    refine .bind (hread _ _ hvalue _ _) fun e e' _ _ he => ?_
    rw [hattr, he, hj'.access rfl]
    exact .pure _
  case h_7 htype =>
    rw [htype] at hj'
    refine .bind (hj'.required rfl) fun left left' _ _ hleft => ?_
    refine .bind (hj'.operator rfl) fun op op' _ _ hop => ?_
    refine .bind (hj'.required rfl) fun right right' _ _ hright => ?_
    subst hop
    split
    · exact .pure _
    · refine .bind (hread _ _ hleft _ _) fun e e' _ _ he => ?_
      refine .bind (hread _ _ hright _ _) fun e₂ e₂' _ _ he₂ => ?_
      rw [he, he₂]
      exact .pure _
  case h_8 htype =>
    rw [htype] at hj'
    refine .bind (hj'.operator rfl) fun op op' _ _ hop => ?_
    refine .bind (hj'.required rfl) fun operand operand' _ _ hoperand => ?_
    subst hop
    split
    · exact .pure _
    · refine .bind (hread _ _ hoperand _ _) fun e e' _ _ he => ?_
      rw [he]
      exact .pure _
  case h_9 htype =>
    rw [htype] at hj'
    refine .bind (hj'.operator rfl) fun op op' _ _ hop => ?_
    refine .bind (hj'.list rfl) fun values values' _ _ hvalues => ?_
    subst hop
    split
    · exact .pure _
    · refine .bind (.each hvalues hread) fun es es' _ _ hes => ?_
      rw [hes]
      exact .pure _
  case h_10 htype =>
    rw [htype] at hj'
    refine .bind (hj'.required rfl) fun left left' _ _ hleft => ?_
    refine .bind (hj'.operators rfl) fun ops ops' _ _ hops => ?_
    refine .bind (hj'.list rfl) fun comparators comparators' _ _ hcomparators => ?_
    subst hops
    split
    · exact .pure _
    · refine .bind (hread _ _ hleft _ _) fun e e' _ _ he => ?_
      refine .bind (.each hcomparators hread) fun es es' _ _ hes => ?_
      rw [he, hes]
      exact .pure _
  case h_11 htype =>
    rw [htype] at hj'
    refine .bind (hj'.required rfl) fun func func' _ _ hfunc => ?_
    refine .bind (hj'.list rfl) fun args args' _ _ hargs => ?_
    refine .bind (hj'.keywords rfl) fun keywords keywords' _ _ hkeywords => ?_
    refine .bind (hread _ _ hfunc _ _) fun e e' _ _ he => ?_
    refine .bind (.each hargs hread) fun es es' _ _ hes => ?_
    rw [he, hes, hkeywords]
    exact .pure _
  case h_12 htype =>
    rw [htype] at hj'
    refine .bind (hj'.required rfl) fun value value' _ _ hvalue => ?_
    refine .bind (hj'.required rfl) fun slice slice' _ _ hslice => ?_
    refine .bind (hread _ _ hvalue _ _) fun e e' _ _ he => ?_
    rw [he, hj'.access rfl]
    exact alike_unwrapIndex hslice (fun p hp q q' => alike_readExpr p.1 hp q q') fun _ => .pure _
  case h_13 htype | h_14 htype =>
    rw [htype] at hj'
    refine .bind (hj'.list rfl) fun elements elements' _ _ helements => ?_
    refine .bind (.each helements hread) fun es es' _ _ hes => ?_
    rw [hes, hj'.access rfl]
    exact .pure _
  case h_15 => exact .pure _
termination_by sizeOf j
decreasing_by all_goals exact sizeOf_part_lt _

theorem alike_readExpr_of_renewed (h : Json.Renewed .expression j j') (place place' : Place) :
    Alike Eq (readExpr j place) (readExpr j' place') := by
  rw [h.2]
  exact alike_readExpr j h.1 place place'

theorem alike_readParameter (hj : j.hasModern Wanted.line.fits .parameter = true)
    (place place' : Place) :
    Alike Eq (readParameter j place) (readParameter (j.modern .parameter) place') := by
  have hj' : Json.Renewal (Role.parameter.slots "") j _ := Json.Renewal.mapBelow hj
  have hmodern : j.modern .parameter = j.mapBelow Json.modernNode .parameter := Json.modern_eq _ _
  rw [hmodern]
  refine .bind (alike_header (g := id) ?_ (Json.member?_mapBelow_of_notMem (by decide)))
    fun h h' _ _ hR => ?_
  · exact Json.nodeType?_mapBelow.trans (congrFun Option.map_id _).symm
  subst hR
  refine .bind (hj'.field rfl) fun name name' _ _ hname => ?_
  rw [hname]
  have hslot : (Role.parameter.slots "").lookup "annotation" = some (.optional .expression) := rfl
  have hannotation := hj'.present? hslot
  generalize present? j "annotation" = a, present? (j.mapBelow _ _) "annotation" = a' at *
  cases hannotation with
  | none => exact .pure _
  | some ha =>
    refine .bind (alike_readExpr_of_renewed ha _ _) fun e e' _ _ he => ?_
    rw [he]
    exact .pure _

theorem alike_plainParameters (hj : j.hasModern Wanted.line.fits .parameters = true)
    (place place' : Place) :
    Alike (Option.Rel (List.Forall₂ fun p p' => Json.Renewed .parameter p.1 p'.1))
      (plainParameters j place) (plainParameters (j.modern .parameters) place') := by
  have hj' : Json.Renewal (Role.parameters.slots "") j _ := Json.Renewal.mapBelow hj
  have hmodern : j.modern .parameters = j.mapBelow Json.modernNode .parameters :=
    Json.modern_eq _ _
  rw [hmodern]
  refine .bind (R := Eq) ?_ fun _ _ _ _ _ => ?_
  · cases j with
    | object members => exact .ok rfl
    | _ => exact .error _ _
  refine .bind (hj'.list rfl) fun args args' _ _ hargs => ?_
  refine .bind (hj'.field rfl) fun positionOnly _ _ _ hpositionOnly => ?_
  refine .bind (hj'.field rfl) fun keywordOnly _ _ _ hkeywordOnly => ?_
  subst hpositionOnly hkeywordOnly
  have hvariadic (key : String) (hkey : key ∉ Role.keys) :
      (present? (j.mapBelow Json.modernNode .parameters) key).isSome =
        (present? j key).isSome := by
    rw [isSome_present?, isSome_present?, Json.has, Json.member?_mapBelow_of_notMem hkey, Json.has]
  dsimp only
  rw [hvariadic _ (by decide), hvariadic _ (by decide)]
  split
  · exact .ok .none
  · exact .ok (.some hargs)

theorem alike_readStmt (j : Json) (hj : j.hasModern Wanted.line.fits .statement = true)
    (place place' : Place) :
    Alike Eq (readStmt j place) (readStmt (j.modern .statement) place') := by
  have hj' := Json.Renewal.mapBelow hj
  have hmodern : j.modern .statement = j.mapBelow Json.modernNode .statement := Json.modern_eq _ _
  rw [hmodern, readStmt, readStmt]
  refine .bind (alike_header (g := id) ?_ (Json.member?_mapBelow_of_notMem (by decide)))
    fun h h' hh _ hR => ?_
  · rw [Json.nodeType?_mapBelow, Option.map_id_fun, id]
  subst hR
  rw [nodeType?_of_header hh, Option.getD_some] at hj'
  dsimp only [id]
  generalize j.mapBelow Json.modernNode .statement = j' at *
  have hread (p : Part j) (p' : Part j') (h : Json.Renewed .statement p.1 p'.1) (q q' : Place) :
      Alike Eq (readStmt p.1 q) (readStmt p'.1 q') := by
    rw [h.2]
    exact alike_readStmt p.1 h.1 q q'
  have hexpr (p : Part j) (p' : Part j') (h : Json.Renewed .expression p.1 p'.1) (q q' : Place) :
      Alike Eq (readExpr p.1 q) (readExpr p'.1 q') :=
    alike_readExpr_of_renewed h q q'
  split
  case h_1 htype =>
    rw [htype] at hj'
    refine .bind (hj'.field rfl) fun name name' _ _ hname => ?_
    refine .bind (hj'.required rfl) fun arguments arguments' _ _ harguments => ?_
    refine .bind (hj'.list rfl) fun body body' _ _ hbody => ?_
    subst hname
    have hplain := alike_plainParameters harguments.1 (place.key "args") (place'.key "args")
    rw [← harguments.2] at hplain
    refine .bind hplain fun parameters parameters' _ _ hparameters => ?_
    cases hparameters with
    | none => exact .pure _
    | some hparameters =>
      refine .bind (.each hparameters fun p p' hp q q' => ?_) fun ps ps' _ _ hps => ?_
      · rw [hp.2]
        exact alike_readParameter hp.1 q q'
      refine .bind (.each hbody hread) fun ss ss' _ _ hss => ?_
      rw [hps, hss]
      exact .pure _
  case h_2 htype =>
    rw [htype] at hj'
    refine .bind (hj'.list rfl) fun targets targets' _ _ htargets => ?_
    refine .bind (hj'.required rfl) fun value value' _ _ hvalue => ?_
    refine .bind (.each htargets hexpr) fun ts ts' _ _ hts => ?_
    refine .bind (hexpr _ _ hvalue _ _) fun e e' _ _ he => ?_
    rw [hts, he]
    exact .pure _
  case h_3 htype =>
    rw [htype] at hj'
    refine .bind (hj'.required rfl) fun target target' _ _ htarget => ?_
    refine .bind (hj'.required rfl) fun typeExpr typeExpr' _ _ htypeExpr => ?_
    refine .bind (hexpr _ _ htarget _ _) fun t t' _ _ ht => ?_
    refine .bind (hexpr _ _ htypeExpr _ _) fun a a' _ _ ha => ?_
    rw [ht, ha]
    have hslot : (Role.statementSlots "AnnAssign").lookup "value" = some (.optional .expression) :=
      rfl
    have hvalue := hj'.present? hslot
    generalize present? j "value" = v, present? j' "value" = v' at *
    cases hvalue with
    | none => exact .pure _
    | some hv =>
      refine .bind (hexpr _ _ hv _ _) fun e e' _ _ he => ?_
      rw [he]
      exact .pure _
  case h_4 htype =>
    rw [htype] at hj'
    refine .bind (hj'.required rfl) fun test test' _ _ htest => ?_
    refine .bind (hj'.list rfl) fun body body' _ _ hbody => ?_
    refine .bind (hj'.list rfl) fun orelse orelse' _ _ horelse => ?_
    refine .bind (hexpr _ _ htest _ _) fun e e' _ _ he => ?_
    refine .bind (.each hbody hread) fun ss ss' _ _ hss => ?_
    refine .bind (.each horelse hread) fun os os' _ _ hos => ?_
    rw [he, hss, hos]
    exact .pure _
  case h_5 htype =>
    rw [htype] at hj'
    refine .bind (hj'.required rfl) fun target target' _ _ htarget => ?_
    refine .bind (hj'.required rfl) fun iter iter' _ _ hiter => ?_
    refine .bind (hj'.list rfl) fun body body' _ _ hbody => ?_
    refine .bind (hj'.list rfl) fun orelse orelse' _ _ horelse => ?_
    refine .bind (hexpr _ _ htarget _ _) fun t t' _ _ ht => ?_
    refine .bind (hexpr _ _ hiter _ _) fun e e' _ _ he => ?_
    refine .bind (.each hbody hread) fun ss ss' _ _ hss => ?_
    refine .bind (.each horelse hread) fun os os' _ _ hos => ?_
    rw [ht, he, hss, hos]
    exact .pure _
  case h_6 htype =>
    rw [htype] at hj'
    refine .bind (hj'.required rfl) fun value value' _ _ hvalue => ?_
    refine .bind (hexpr _ _ hvalue _ _) fun e e' _ _ he => ?_
    rw [he]
    exact .pure _
  case h_7 => exact .pure _
termination_by sizeOf j
decreasing_by all_goals exact sizeOf_part_lt _

theorem alike_readModule (hj : j.hasModern Wanted.line.fits .program = true)
    (place place' : Place) :
    Alike Eq (readModule j place) (readModule (j.modern .program) place') := by
  have hj' := Json.Renewal.mapBelow hj
  have hmodern : j.modern .program = j.mapBelow Json.modernNode .program := Json.modern_eq _ _
  rw [hmodern]
  refine .bind (alike_header (g := id) ?_ (Json.member?_mapBelow_of_notMem (by decide)))
    fun h h' hh _ hR => ?_
  · rw [Json.nodeType?_mapBelow, Option.map_id_fun, id]
  subst hR
  dsimp only [id]
  split
  · exact .error _ _
  · rename_i hmodule
    rw [nodeType?_of_header hh, not_not.mp hmodule] at hj'
    refine .bind (hj'.list rfl) fun body body' _ _ hbody => ?_
    refine .bind (.each hbody fun p p' hp q q' => ?_) fun ss ss' _ _ hss => ?_
    · rw [hp.2]
      exact alike_readStmt p.1 hp.1 q q'
    · rw [hss]
      exact .pure _

end Reading

/-- Whether a value is an integer, however great. -/
def Json.isInteger : Json → Bool
  | .number x => x.isInteger
  | _ => false

/-- An older module, and its newer form, are read as the same module or not at all. So the programs
of older modules are lowered as those of their newer forms. -/
theorem Outcome.modern_alike {js : List Json}
    (h : ∀ j ∈ js, j.hasModern Wanted.line.fits .program = true) :
    (∀ j ∈ js, ∀ place m, readModule j place = .ok m ↔
      readModule (j.modern .program) place = .ok m) ∧
    ∀ name date outcome,
      (∃ ms, js.mapM (readModule · .top) = .ok ms ∧ ofModules ms name date = outcome) ↔
      ∃ ms, (js.map (·.modern .program)).mapM (readModule · .top) = .ok ms ∧
        ofModules ms name date = outcome := by
  have hmapM : Alike Eq (js.mapM (readModule · .top))
      ((js.map (·.modern .program)).mapM (readModule · .top)) := by
    refine .mapM (R := fun j j' => j ∈ js ∧ j' = j.modern .program) ?_ fun j j' hj => ?_
    · exact List.forall₂_map_right_iff.mpr (List.forall₂_same.mpr fun j hj => ⟨hj, rfl⟩)
    · rw [hj.2]
      exact alike_readModule (h j hj.1) .top .top
  refine ⟨fun j hj place => (alike_readModule (h j hj) place place).ok_iff, ?_⟩
  exact fun name date outcome => exists_congr fun ms => and_congr_left' (hmapM.ok_iff ms)

/-- A module with older nodes: a number in a subscript whose wrapped index has the given line, and
a call with a text and a truth value. -/
def Json.sampleOlder (line : Int) : Json :=
  let name (id : String) : Json := .object [("_type", .string "Name"), ("id", .string id)]
  let zero : Json := .object [("_type", .string "Num"), ("n", .ofInt 0), ("lineno", .ofInt 1)]
  let index : Json := .object [("_type", .string "Index"), ("value", zero), ("lineno", .ofInt line)]
  let subscript : Json := .object [("_type", .string "Subscript"), ("value", name "x"),
    ("slice", index)]
  let arguments : List Json := [.object [("_type", .string "Str"), ("s", .string "a")],
    .object [("_type", .string "NameConstant"), ("value", .bool true)]]
  let call : Json := .object [("_type", .string "Call"), ("func", name "f"),
    ("args", .array arguments)]
  .object [("_type", .string "Module"), ("body", .array [
    .object [("_type", .string "Assign"), ("targets", .array [name "y"]), ("value", subscript)],
    .object [("_type", .string "Expr"), ("value", call)]])]

theorem Outcome.modern_alike_sample :
    (∀ j ∈ [Json.sampleOlder 1], j.hasModern Wanted.line.fits .program = true) ∧
      ∃ m, readModule (Json.sampleOlder 1) .top = .ok m ∧
        readModule ((Json.sampleOlder 1).modern .program) .top = .ok m := by
  have hmodern : ∀ j ∈ [Json.sampleOlder 1], j.hasModern Wanted.line.fits .program = true := by
    rw [List.forall_mem_singleton]
    decide +kernel
  have hread : (readModule (Json.sampleOlder 1) .top).toOption.any (fun _ => true) =
      true := by
    decide +kernel
  obtain ⟨m, hm, -⟩ := except_exists_ok_of_any hread
  have halike := (Outcome.modern_alike hmodern).1 _ List.mem_cons_self .top m
  exact ⟨hmodern, m, hm, halike.mp hm⟩

/-- The line of a wrapped index has to be told apart from its neighbours, though it is lost. -/
theorem Reading.index_line_matters :
    (Json.sampleOlder 9007199254740992).hasModern (·.all Json.isInteger) .program = true ∧
      (∀ m, readModule (Json.sampleOlder 9007199254740992) .top ≠ .ok m) ∧
      ∃ m, readModule ((Json.sampleOlder 9007199254740992).modern .program) .top =
        .ok m := by
  have hmodern : (Json.sampleOlder 9007199254740992).hasModern (·.all Json.isInteger) .program =
      true := by
    decide +kernel
  have hrefused : (readModule (Json.sampleOlder 9007199254740992) .top).toOption.isNone =
      true := by
    decide +kernel
  have hread : (readModule ((Json.sampleOlder 9007199254740992).modern .program)
      .top).toOption.any (fun _ => true) = true := by
    decide +kernel
  refine ⟨hmodern, fun m hm => ?_, ?_⟩
  · rw [hm] at hrefused
    cases hrefused
  · obtain ⟨m, hm, -⟩ := except_exists_ok_of_any hread
    exact ⟨m, hm⟩

end ProgramGraph
