import ProgramGraph.Proofs.Reading.Rendering

/-! Reading undoes rendering: whatever else a tree holds, the program that it renders is read from
it. -/
namespace ProgramGraph

open Shape

theorem BinaryOp.ofName?_name (op : BinaryOp) : ofName? op.name = some op := by
  cases op <;> rfl

theorem UnaryOp.ofName?_name (op : UnaryOp) : ofName? op.name = some op := by
  cases op <;> rfl

theorem BoolOp.ofName?_name (op : BoolOp) : ofName? op.name = some op := by
  cases op <;> rfl

theorem CompareOp.ofName?_name (op : CompareOp) : ofName? op.name = some op := by
  cases op <;> rfl

theorem Domain.ofKeyword?_keyword (d : Domain) : ofKeyword? d.keyword = some d := by
  cases d <;> rfl

theorem Shape.list_of_forall₂ {α : Type} {item : Of α} {as : List α} {vs : List Json}
    (h : List.Forall₂ (fun a v => item (some v) = .ok a) as vs) :
    Shape.list item (some (.array vs)) = .ok as := by
  apply list_of_map_eq
  induction h with
  | nil => rfl
  | cons hitem _ ih => rw [List.map_cons, hitem, ih, List.map_cons]

theorem Expr.RenderedAs.isNode {e : Expr} {j : Json} (h : e.RenderedAs j) :
    j.IsNode e.typeName e.line := by
  cases e <;> exact h.1

theorem Stmt.RenderedAs.isNode {s : Stmt} {j : Json} (h : s.RenderedAs j) :
    j.IsNode s.typeName s.line := by
  cases s <;> exact h.1

namespace Reading
variable {j : Json} {place : Place} {key : String}

/-! ### Parts of a node -/

theorem header_of_isNode {type : String} {line : Option Int} (h : j.IsNode type line)
    (hline : line.all Binary64.isSafe = true) : header j = .ok ⟨type, line⟩ := by
  obtain ⟨htype, hmember⟩ := h
  cases j with
  | object members =>
    have htype : members.lookup "_type" = some (.string type) := htype
    have hmember : members.lookup "lineno" = line.map .ofInt := hmember
    unfold header record member
    cases line with
    | none => simp [htype, hmember, string, Shape.optional]
    | some n => simp [htype, hmember, string, Shape.optional, int_ofInt hline]
  | _ => cases htype

theorem settle_header {type : String} {line : Option Int} (h : j.IsNode type line)
    (hline : line.all Binary64.isSafe = true) : settle place (header j) = .ok ⟨type, line⟩ := by
  rw [header_of_isNode h hline]
  rfl

theorem field_eq {α : Type} {shape : Of α} {a : α} (h : shape (j.member? key) = .ok a) :
    field j place key shape = .ok a := by
  rw [field, h]
  rfl

theorem field_string {s : String} (h : j.member? key = some (.string s)) :
    field j place key string = .ok s := by
  apply field_eq
  rw [h]
  rfl

theorem exists_required {P : Json → Prop} (h : j.Holds key P) :
    ∃ p : Part j, required j place key = .ok p ∧ P p.1 := by
  obtain ⟨v, hv, hP⟩ := h
  rw [← map_member?, Option.map_eq_some_iff] at hv
  obtain ⟨p, hp, rfl⟩ := hv
  exact ⟨p, by rw [required, hp], hP⟩

theorem exists_list {P : List Json → Prop} (h : j.HoldsList key P) :
    ∃ ps : List (Part j), list j place key = .ok ps ∧ P (ps.map Subtype.val) := by
  obtain ⟨vs, hvs, hP⟩ := h
  rw [← map_member?, Option.map_eq_some_iff] at hvs
  obtain ⟨⟨v, hlt⟩, hp, rfl⟩ := hvs
  refine ⟨_, by rw [list, hp]; rfl, ?_⟩
  simpa using hP

theorem exists_present?_of_ne_null {v : Json} (hv : j.member? key = some v) (hne : v ≠ .null) :
    ∃ p : Part j, present? j key = some p ∧ p.1 = v := by
  rw [← map_member?, Option.map_eq_some_iff] at hv
  obtain ⟨p, hp, rfl⟩ := hv
  refine ⟨p, ?_, rfl⟩
  rw [present?, hp, Option.filter_some]
  cases hv : p.1 with
  | null => exact absurd hv hne
  | _ => rfl

theorem exists_present? {e : Expr} (h : j.Holds key e.RenderedAs) :
    ∃ p : Part j, present? j key = some p ∧ e.RenderedAs p.1 := by
  obtain ⟨v, hv, he⟩ := h
  have hne : v ≠ .null := by
    rintro rfl
    cases he.isNode.type
  obtain ⟨p, hp, rfl⟩ := exists_present?_of_ne_null hv hne
  exact ⟨p, hp, he⟩

theorem present?_eq_none (h : j.has key = false) : present? j key = none := by
  rw [← isSome_present?] at h
  simpa using h

/-- Items that are read one by one are read as a list. -/
theorem each_eq {β : Type} {read : Json → Place → Result β} {ps : List (Part j)} {bs : List β}
    (place : Place) (h : List.Forall₂ (fun v b => ∀ p, read v p = .ok b) (ps.map Subtype.val) bs) :
    each place ps (fun v p => read v.1 p) = .ok bs := by
  have hfrom : ∀ i, (ps.zipIdx i).mapM (fun (v, i) => read v.1 (place.item i)) = .ok bs := by
    rw [List.forall₂_map_left_iff] at h
    induction h with
    | nil => exact fun _ => rfl
    | cons hread _ ih =>
      intro i
      rw [List.zipIdx_cons, List.mapM_cons]
      refine except_bind_eq_ok.mpr ⟨_, hread _, ?_⟩
      exact except_bind_eq_ok.mpr ⟨_, ih _, rfl⟩
  exact hfrom 0

theorem access_of_holds {a : Access} (h : j.Holds "ctx" a.RenderedAs) :
    access (j.member? "ctx") = a := by
  obtain ⟨ctx, hctx, ha⟩ := h
  rw [hctx, access, header_of_isNode ha rfl]
  cases a <;> rfl

theorem field_operator {op : String} (h : j.Holds "op" (·.IsNode op none)) :
    field j place "op" header = .ok ⟨op, none⟩ := by
  obtain ⟨v, hv, hop⟩ := h
  apply field_eq
  rw [hv, header_of_isNode hop rfl]

theorem field_operators {ops : List CompareOp}
    (h : j.HoldsList "ops" (List.Forall₂ (fun op v => v.IsNode op.name none) ops)) :
    field j place "ops" (Shape.list header) = .ok (ops.map fun op => ⟨op.name, none⟩) := by
  obtain ⟨vs, hvs, hops⟩ := h
  apply field_eq
  rw [hvs]
  apply list_of_forall₂
  rw [List.forall₂_map_left_iff]
  exact hops.imp fun op v hop => header_of_isNode hop rfl

theorem compareOps_names (ops : List CompareOp) :
    compareOps ((ops.map fun op => (⟨op.name, none⟩ : Header)).map Header.type) = .ok ops := by
  rw [List.map_map]
  induction ops with
  | nil => rfl
  | cons op ops ih =>
    rw [compareOps, List.map_cons, List.mapM_cons]
    refine except_bind_eq_ok.mpr ⟨op, ?_, except_bind_eq_ok.mpr ⟨ops, ih, rfl⟩⟩
    simp [CompareOp.ofName?_name]

theorem keyword_eq {v : Json} {name : String} (h : v.member? "arg" = some (Json.keywordName name)) :
    keyword (some v) = .ok name := by
  cases v with
  | object members =>
    have h : members.lookup "arg" = some (Json.keywordName name) := h
    unfold keyword record member
    simp only [h]
    by_cases hname : name = "**"
    · rw [Json.keywordName, if_pos hname, hname]
      rfl
    · rw [Json.keywordName, if_neg hname]
      rfl
  | _ => cases h

theorem field_keywords {keywords : List String}
    (h : j.HoldsList "keywords"
      (List.Forall₂ (fun k v => v.member? "arg" = some (Json.keywordName k)) keywords)) :
    field j place "keywords" (Shape.optional (Shape.list keyword)) = .ok (some keywords) := by
  obtain ⟨vs, hvs, hkeywords⟩ := h
  apply field_eq
  have hlist : Shape.list keyword (some (.array vs)) = .ok keywords :=
    list_of_forall₂ (hkeywords.imp fun k v hk => keyword_eq hk)
  rw [hvs]
  change some <$> Shape.list keyword (some (.array vs)) = _
  rw [hlist]
  rfl

theorem constant_eq {l : Literal} {line : Option Int} (hl : admits l.domain l.value = true)
    (hvalue : j.member? "value" = some l.value.toJson)
    (htype : j.member? "_valueType" = some (.string l.domain.keyword)) :
    constant j place line = .ok (.constant l line) := by
  obtain ⟨d, v⟩ := l
  have hv : field j place "value" constantValue = .ok (some v) := by
    apply field_eq
    rw [hvalue]
    cases v <;> rfl
  have hd : field j place "_valueType" (Shape.optional string) = .ok (some d.keyword) := by
    apply field_eq
    rw [htype]
    rfl
  refine except_bind_eq_ok.mpr ⟨_, hv, except_bind_eq_ok.mpr ⟨_, hd, ?_⟩⟩
  have hl : admits d v = true := hl
  simp only [Domain.ofKeyword?_keyword, hl, if_true]
  rfl

/-! ### Nodes -/

-- The inductions below are on programs, not on trees: what a program says picks the members of a
-- tree that are read, and each read takes its steps in the order of the reader.

theorem header_of_rendered {e : Expr} (he : e.All Expr.isRenderable) (hj : e.RenderedAs j) :
    settle place (header j) = .ok ⟨e.typeName, e.line⟩ := by
  have hline : e.line.all Binary64.isSafe = true := by
    have hself := he.self
    unfold Expr.isRenderable at hself
    exact ((Bool.and_eq_true _ _).mp hself).1
  exact settle_header hj.isNode hline

/-- A tree that is no wrapper is the index itself. -/
theorem unwrapIndex_eq {e : Expr} {slice : Part j} (he : e.All Expr.isRenderable)
    (hj : e.RenderedAs slice.1) (hindex : e.typeName ≠ "Index") :
    unwrapIndex slice place = .ok (slice, place) := by
  refine except_bind_eq_ok.mpr ⟨_, header_of_rendered he hj, ?_⟩
  rw [if_neg hindex]
  rfl

mutual

/-- An expression is read from each tree that renders it. -/
theorem readExpr_of_rendered (e : Expr) {j : Json} {place : Place}
    (he : e.All Expr.isRenderable) (hj : e.RenderedAs j) : readExpr j place = .ok e := by
  have hself := he.self
  unfold Expr.isRenderable at hself
  have hnode := ((Bool.and_eq_true _ _).mp hself).2
  rw [readExpr]
  refine except_bind_eq_ok.mpr ⟨_, header_of_rendered he hj, ?_⟩
  cases e with
  | constant l line =>
    obtain ⟨-, hvalue, htype⟩ := hj
    exact constant_eq hnode hvalue htype
  | name id access line =>
    obtain ⟨-, hid, hctx⟩ := hj
    refine except_bind_eq_ok.mpr ⟨_, field_string hid, ?_⟩
    rw [access_of_holds hctx]
    rfl
  | member value attr access line =>
    obtain ⟨-, hvalue, hattr, hctx⟩ := hj
    obtain ⟨v, hv, hvalue⟩ := exists_required hvalue
    refine except_bind_eq_ok.mpr ⟨v, hv, ?_⟩
    refine except_bind_eq_ok.mpr ⟨attr, field_string hattr, ?_⟩
    refine except_bind_eq_ok.mpr ⟨value, readExpr_of_rendered value he.member hvalue, ?_⟩
    rw [access_of_holds hctx]
    rfl
  | binary op left right line =>
    obtain ⟨-, hleft, hop, hright⟩ := hj
    obtain ⟨l, hl, hleft⟩ := exists_required hleft
    obtain ⟨r, hr, hright⟩ := exists_required hright
    refine except_bind_eq_ok.mpr ⟨l, hl, ?_⟩
    refine except_bind_eq_ok.mpr ⟨_, field_operator hop, ?_⟩
    refine except_bind_eq_ok.mpr ⟨r, hr, ?_⟩
    rw [BinaryOp.ofName?_name]
    refine except_bind_eq_ok.mpr ⟨left, readExpr_of_rendered left he.binary.1 hleft, ?_⟩
    exact except_bind_eq_ok.mpr ⟨right, readExpr_of_rendered right he.binary.2 hright, rfl⟩
  | unary op operand line =>
    obtain ⟨-, hop, hoperand⟩ := hj
    obtain ⟨v, hv, hoperand⟩ := exists_required hoperand
    refine except_bind_eq_ok.mpr ⟨_, field_operator hop, ?_⟩
    refine except_bind_eq_ok.mpr ⟨v, hv, ?_⟩
    rw [UnaryOp.ofName?_name]
    exact except_bind_eq_ok.mpr ⟨operand, readExpr_of_rendered operand he.unary hoperand, rfl⟩
  | boolean op values line =>
    obtain ⟨-, hop, hvalues⟩ := hj
    obtain ⟨vs, hvs, hvalues⟩ := exists_list hvalues
    refine except_bind_eq_ok.mpr ⟨_, field_operator hop, ?_⟩
    refine except_bind_eq_ok.mpr ⟨vs, hvs, ?_⟩
    rw [BoolOp.ofName?_name]
    have heach := each_eq (place.key "values") (readEach_of_rendered values he.boolean hvalues)
    exact except_bind_eq_ok.mpr ⟨values, heach, rfl⟩
  | compare left ops comparators line =>
    obtain ⟨-, hleft, hops, hcomparators⟩ := hj
    obtain ⟨l, hl, hleft⟩ := exists_required hleft
    obtain ⟨vs, hvs, hcomparators⟩ := exists_list hcomparators
    refine except_bind_eq_ok.mpr ⟨l, hl, ?_⟩
    refine except_bind_eq_ok.mpr ⟨_, field_operators hops, ?_⟩
    refine except_bind_eq_ok.mpr ⟨vs, hvs, ?_⟩
    rw [compareOps_names]
    refine except_bind_eq_ok.mpr ⟨left, readExpr_of_rendered left he.compare.1 hleft, ?_⟩
    have heach := each_eq (place.key "comparators")
      (readEach_of_rendered comparators he.compare.2 hcomparators)
    exact except_bind_eq_ok.mpr ⟨comparators, heach, rfl⟩
  | call func args keywords line =>
    obtain ⟨-, hfunc, hargs, hkeywords⟩ := hj
    obtain ⟨f, hf, hfunc⟩ := exists_required hfunc
    obtain ⟨vs, hvs, hargs⟩ := exists_list hargs
    refine except_bind_eq_ok.mpr ⟨f, hf, ?_⟩
    refine except_bind_eq_ok.mpr ⟨vs, hvs, ?_⟩
    refine except_bind_eq_ok.mpr ⟨_, field_keywords hkeywords, ?_⟩
    refine except_bind_eq_ok.mpr ⟨func, readExpr_of_rendered func he.func hfunc, ?_⟩
    have heach := each_eq (place.key "args") (readEach_of_rendered args he.call hargs)
    exact except_bind_eq_ok.mpr ⟨args, heach, rfl⟩
  | subscript value index access line =>
    obtain ⟨-, hvalue, hslice, hctx⟩ := hj
    obtain ⟨v, hv, hvalue⟩ := exists_required hvalue
    obtain ⟨slice, hs, hindex⟩ := exists_required hslice
    have hunwrap : unwrapIndex slice (place.key "slice") = .ok (slice, place.key "slice") :=
      unwrapIndex_eq he.subscript.2 hindex (by simpa using hnode)
    refine except_bind_eq_ok.mpr ⟨v, hv, ?_⟩
    refine except_bind_eq_ok.mpr ⟨slice, hs, ?_⟩
    refine except_bind_eq_ok.mpr ⟨value, readExpr_of_rendered value he.subscript.1 hvalue, ?_⟩
    refine except_bind_eq_ok.mpr ⟨_, hunwrap, ?_⟩
    refine except_bind_eq_ok.mpr ⟨index, readExpr_of_rendered index he.subscript.2 hindex, ?_⟩
    rw [access_of_holds hctx]
    rfl
  | list elements access line =>
    obtain ⟨-, helements, hctx⟩ := hj
    obtain ⟨vs, hvs, helements⟩ := exists_list helements
    refine except_bind_eq_ok.mpr ⟨vs, hvs, ?_⟩
    have heach := each_eq (place.key "elts") (readEach_of_rendered elements he.list helements)
    refine except_bind_eq_ok.mpr ⟨elements, heach, ?_⟩
    rw [access_of_holds hctx]
    rfl
  | tuple elements access line =>
    obtain ⟨-, helements, hctx⟩ := hj
    obtain ⟨vs, hvs, helements⟩ := exists_list helements
    refine except_bind_eq_ok.mpr ⟨vs, hvs, ?_⟩
    have heach := each_eq (place.key "elts") (readEach_of_rendered elements he.tuple helements)
    refine except_bind_eq_ok.mpr ⟨elements, heach, ?_⟩
    rw [access_of_holds hctx]
    rfl
  | unsupported nodeType line =>
    have hclass : nodeType ∉ Expr.classes := by simpa using hnode
    simp only [Expr.classes, List.mem_cons, List.not_mem_nil, or_false, not_or] at hclass
    dsimp only [Expr.typeName, Expr.line]
    split
    all_goals first | rfl | simp_all

theorem readEach_of_rendered (es : List Expr) {js : List Json}
    (he : ∀ e ∈ es, e.All Expr.isRenderable) (hj : Expr.RenderedAsEach es js) :
    List.Forall₂ (fun v e => ∀ p, readExpr v p = .ok e) js es := by
  cases es with
  | nil =>
    cases js with
    | nil => exact .nil
    | cons j js => cases hj
  | cons e es =>
    cases js with
    | nil => cases hj
    | cons j js =>
      rw [List.forall_mem_cons] at he
      exact .cons (fun _ => readExpr_of_rendered e he.1 hj.1) (readEach_of_rendered es he.2 hj.2)

end

theorem readParameter_of_rendered {p : Parameter} {j : Json} (place : Place)
    (hp : p.isRenderable = true) (hj : p.RenderedAs j) : readParameter j place = .ok p := by
  obtain ⟨name, typeExpr, line⟩ := p
  obtain ⟨hline, htype⟩ := (Bool.and_eq_true _ _).mp hp
  obtain ⟨hnode, hname, hannotation⟩ := hj
  refine except_bind_eq_ok.mpr ⟨_, settle_header hnode hline, ?_⟩
  refine except_bind_eq_ok.mpr ⟨name, field_string hname, ?_⟩
  cases typeExpr with
  | none =>
    rw [present?_eq_none hannotation]
    rfl
  | some e =>
    have he : e.All Expr.isRenderable := of_decide_eq_true htype
    obtain ⟨v, hv, hannotation⟩ := exists_present? hannotation
    rw [hv]
    exact except_bind_eq_ok.mpr ⟨e, readExpr_of_rendered e he hannotation, rfl⟩

theorem readParameters_of_rendered {ps : List Parameter} {js : List Json}
    (hps : ps.all Parameter.isRenderable = true) (hjs : List.Forall₂ Parameter.RenderedAs ps js) :
    List.Forall₂ (fun v p => ∀ place, readParameter v place = .ok p) js ps := by
  induction hjs with
  | nil => exact .nil
  | cons hp _ ih =>
    rw [List.all_cons, Bool.and_eq_true] at hps
    exact .cons (fun place => readParameter_of_rendered place hps.1 hp) (ih hps.2)

theorem exists_plainParameters {parameters : List Parameter} {arguments : Json}
    (h : Parameter.ListRenderedAs parameters arguments) :
    ∃ ps : List (Part arguments), plainParameters arguments place = .ok (some ps) ∧
      List.Forall₂ Parameter.RenderedAs parameters (ps.map Subtype.val) := by
  obtain ⟨ps, hps, hparameters⟩ := exists_list h.positional
  refine ⟨ps, ?_, hparameters⟩
  have hobject : settle place (record (fun _ => .ok ()) (some arguments)) = .ok () := by
    cases arguments with
    | object members => rfl
    | _ => cases h.positionOnly
  have hposition : field arguments place "posonlyargs" (Shape.optional count) = .ok (some 0) := by
    apply field_eq
    rw [h.positionOnly]
    rfl
  have hkeyword : field arguments place "kwonlyargs" (Shape.optional count) = .ok (some 0) := by
    apply field_eq
    rw [h.keywordOnly]
    rfl
  refine except_bind_eq_ok.mpr ⟨_, hobject, ?_⟩
  refine except_bind_eq_ok.mpr ⟨ps, hps, ?_⟩
  refine except_bind_eq_ok.mpr ⟨_, hposition, ?_⟩
  refine except_bind_eq_ok.mpr ⟨_, hkeyword, ?_⟩
  dsimp only
  rw [isSome_present?, isSome_present?, h.variadic, h.keywords]
  rfl

mutual

/-- A statement is read from each tree that renders it. -/
theorem readStmt_of_rendered (s : Stmt) {j : Json} {place : Place}
    (hs : s.isRenderable = true) (hj : s.RenderedAs j) : readStmt j place = .ok s := by
  unfold Stmt.isRenderable at hs
  obtain ⟨hline, hnode⟩ := (Bool.and_eq_true _ _).mp hs
  rw [readStmt]
  refine except_bind_eq_ok.mpr ⟨_, settle_header hj.isNode hline, ?_⟩
  cases s with
  | functionDef name parameters body line =>
    obtain ⟨hparameters, hbody⟩ := (Bool.and_eq_true _ _).mp hnode
    obtain ⟨-, hname, jparameters, jbody⟩ := hj
    obtain ⟨arguments, harguments, jparameters⟩ := exists_required jparameters
    obtain ⟨items, hitems, jbody⟩ := exists_list jbody
    obtain ⟨ps, hplain, jparameters⟩ := exists_plainParameters jparameters
    refine except_bind_eq_ok.mpr ⟨name, field_string hname, ?_⟩
    refine except_bind_eq_ok.mpr ⟨arguments, harguments, ?_⟩
    refine except_bind_eq_ok.mpr ⟨items, hitems, ?_⟩
    refine except_bind_eq_ok.mpr ⟨some ps, hplain, ?_⟩
    have hps := each_eq ((place.key "args").key "args")
      (readParameters_of_rendered hparameters jparameters)
    refine except_bind_eq_ok.mpr ⟨parameters, hps, ?_⟩
    have hblock := each_eq (place.key "body") (readBlock_of_rendered body hbody jbody)
    exact except_bind_eq_ok.mpr ⟨body, hblock, rfl⟩
  | assign targets value line =>
    obtain ⟨htargets, hvalue⟩ := (Bool.and_eq_true _ _).mp hnode
    obtain ⟨-, jtargets, jvalue⟩ := hj
    obtain ⟨ts, hts, jtargets⟩ := exists_list jtargets
    obtain ⟨v, hv, jvalue⟩ := exists_required jvalue
    refine except_bind_eq_ok.mpr ⟨ts, hts, ?_⟩
    refine except_bind_eq_ok.mpr ⟨v, hv, ?_⟩
    have htargets : ∀ e ∈ targets, e.All Expr.isRenderable := by simpa using htargets
    have heach := each_eq (place.key "targets") (readEach_of_rendered targets htargets jtargets)
    refine except_bind_eq_ok.mpr ⟨targets, heach, ?_⟩
    have hvalue := of_decide_eq_true hvalue
    exact except_bind_eq_ok.mpr ⟨value, readExpr_of_rendered value hvalue jvalue, rfl⟩
  | annAssign target typeExpr value line =>
    obtain ⟨hsides, hvalue⟩ := (Bool.and_eq_true _ _).mp hnode
    obtain ⟨htarget, htype⟩ := (Bool.and_eq_true _ _).mp hsides
    obtain ⟨-, jtarget, jtype, jvalue⟩ := hj
    obtain ⟨t, ht, jtarget⟩ := exists_required jtarget
    obtain ⟨a, ha, jtype⟩ := exists_required jtype
    refine except_bind_eq_ok.mpr ⟨t, ht, ?_⟩
    refine except_bind_eq_ok.mpr ⟨a, ha, ?_⟩
    have htarget := of_decide_eq_true htarget
    refine except_bind_eq_ok.mpr ⟨target, readExpr_of_rendered target htarget jtarget, ?_⟩
    have htype := of_decide_eq_true htype
    refine except_bind_eq_ok.mpr ⟨typeExpr, readExpr_of_rendered typeExpr htype jtype, ?_⟩
    cases value with
    | none =>
      rw [present?_eq_none jvalue]
      rfl
    | some e =>
      obtain ⟨v, hv, jvalue⟩ := exists_present? jvalue
      rw [hv]
      have hvalue := of_decide_eq_true hvalue
      exact except_bind_eq_ok.mpr ⟨e, readExpr_of_rendered e hvalue jvalue, rfl⟩
  | branch test body orelse line =>
    obtain ⟨hthen, horelse⟩ := (Bool.and_eq_true _ _).mp hnode
    obtain ⟨htest, hbody⟩ := (Bool.and_eq_true _ _).mp hthen
    obtain ⟨-, jtest, jbody, jorelse⟩ := hj
    obtain ⟨t, ht, jtest⟩ := exists_required jtest
    obtain ⟨bs, hbs, jbody⟩ := exists_list jbody
    obtain ⟨os, hos, jorelse⟩ := exists_list jorelse
    refine except_bind_eq_ok.mpr ⟨t, ht, ?_⟩
    refine except_bind_eq_ok.mpr ⟨bs, hbs, ?_⟩
    refine except_bind_eq_ok.mpr ⟨os, hos, ?_⟩
    have htest := of_decide_eq_true htest
    refine except_bind_eq_ok.mpr ⟨test, readExpr_of_rendered test htest jtest, ?_⟩
    have hblock := each_eq (place.key "body") (readBlock_of_rendered body hbody jbody)
    refine except_bind_eq_ok.mpr ⟨body, hblock, ?_⟩
    have hblock := each_eq (place.key "orelse") (readBlock_of_rendered orelse horelse jorelse)
    exact except_bind_eq_ok.mpr ⟨orelse, hblock, rfl⟩
  | loop target iter body orelse line =>
    obtain ⟨hloop, horelse⟩ := (Bool.and_eq_true _ _).mp hnode
    obtain ⟨hhead, hbody⟩ := (Bool.and_eq_true _ _).mp hloop
    obtain ⟨htarget, hiter⟩ := (Bool.and_eq_true _ _).mp hhead
    obtain ⟨-, jtarget, jiter, jbody, jorelse⟩ := hj
    obtain ⟨t, ht, jtarget⟩ := exists_required jtarget
    obtain ⟨i, hi, jiter⟩ := exists_required jiter
    obtain ⟨bs, hbs, jbody⟩ := exists_list jbody
    obtain ⟨os, hos, jorelse⟩ := exists_list jorelse
    refine except_bind_eq_ok.mpr ⟨t, ht, ?_⟩
    refine except_bind_eq_ok.mpr ⟨i, hi, ?_⟩
    refine except_bind_eq_ok.mpr ⟨bs, hbs, ?_⟩
    refine except_bind_eq_ok.mpr ⟨os, hos, ?_⟩
    have htarget := of_decide_eq_true htarget
    refine except_bind_eq_ok.mpr ⟨target, readExpr_of_rendered target htarget jtarget, ?_⟩
    have hiter := of_decide_eq_true hiter
    refine except_bind_eq_ok.mpr ⟨iter, readExpr_of_rendered iter hiter jiter, ?_⟩
    have hblock := each_eq (place.key "body") (readBlock_of_rendered body hbody jbody)
    refine except_bind_eq_ok.mpr ⟨body, hblock, ?_⟩
    have hblock := each_eq (place.key "orelse") (readBlock_of_rendered orelse horelse jorelse)
    exact except_bind_eq_ok.mpr ⟨orelse, hblock, rfl⟩
  | expr value line =>
    obtain ⟨-, jvalue⟩ := hj
    obtain ⟨v, hv, jvalue⟩ := exists_required jvalue
    refine except_bind_eq_ok.mpr ⟨v, hv, ?_⟩
    have hnode := of_decide_eq_true hnode
    exact except_bind_eq_ok.mpr ⟨value, readExpr_of_rendered value hnode jvalue, rfl⟩
  | unsupported nodeType line =>
    have hclass : nodeType ∉ Stmt.classes := by simpa using hnode
    simp only [Stmt.classes, List.mem_cons, List.not_mem_nil, or_false, not_or] at hclass
    dsimp only [Stmt.typeName, Stmt.line]
    split
    all_goals first | rfl | simp_all

theorem readBlock_of_rendered (block : List Stmt) {js : List Json}
    (hs : Stmt.eachRenderable block = true) (hj : Stmt.RenderedAsEach block js) :
    List.Forall₂ (fun v s => ∀ p, readStmt v p = .ok s) js block := by
  cases block with
  | nil =>
    cases js with
    | nil => exact .nil
    | cons j js => cases hj
  | cons s rest =>
    cases js with
    | nil => cases hj
    | cons j js =>
      obtain ⟨hs, hrest⟩ := (Bool.and_eq_true _ _).mp hs
      exact .cons (fun _ => readStmt_of_rendered s hs hj.1) (readBlock_of_rendered rest hrest hj.2)

end

theorem readModule_of_rendered {m : Module} (hm : m.isRenderable = true) (hj : m.RenderedAs j) :
    readModule j place = .ok m := by
  obtain ⟨hnode, jbody⟩ := hj
  obtain ⟨bs, hbs, jbody⟩ := exists_list jbody
  refine except_bind_eq_ok.mpr ⟨_, settle_header hnode rfl, ?_⟩
  refine except_bind_eq_ok.mpr ⟨bs, hbs, ?_⟩
  have hblock := each_eq (place.key "body") (readBlock_of_rendered m.body hm jbody)
  exact except_bind_eq_ok.mpr ⟨m.body, hblock, rfl⟩

end Reading

/-- A module whose lines are safe, whose constants are of their domains and whose leaves are read as
leaves is read back from its rendering, and from each tree that holds the same. -/
theorem Module.readModule_toJson {m : Module} (hm : m.isRenderable = true) (place : Place) :
    Reading.readModule m.toJson place = .ok m ∧
      ∀ j, m.RenderedAs j → Reading.readModule j place = .ok m := by
  constructor
  · exact Reading.readModule_of_rendered hm m.renderedAs_toJson
  · intro j hj
    exact Reading.readModule_of_rendered hm hj

/-- A definition with a parameter of a type, a loop over a call with keywords, and leaves. -/
def Module.sampleDefinition : Module :=
  let x (access : Access) : Expr := .name "x" access (some 2)
  let count : Parameter := ⟨"count", some (.name "int" .load (some 1)), some 1⟩
  let one : Expr := .constant ⟨.real, .number (Binary64.round? 1).get!⟩ (some 3)
  let step : Expr := .binary .mult (.unary .neg (x .load) (some 2)) one (some 3)
  let iter : Expr := .call (.member (x .load) "items" .load (some 2)) [step] ["key", "**"] (some 2)
  let chain : Expr := .compare (x .load) [.lt, .notEq] [one, .unsupported "Lambda" none] (some 4)
  let element : Expr := .subscript (x .load) (.unsupported "Slice" (some 4)) .store (some 4)
  ⟨[.functionDef "f" [count, ⟨"rest", none, none⟩]
    [.annAssign (x .store) (.name "float" .load (some 2)) none (some 2),
      .loop (x .store) iter [.branch chain [.assign [element] one (some 4)] [] (some 4)]
        [.unsupported "Break" (some 5)] (some 3)] (some 1)]⟩

theorem Module.readModule_toJson_sample :
    sampleDefinition.isRenderable = true ∧
    Reading.readModule sampleDefinition.toJson .top = .ok sampleDefinition ∧
    Reading.readModule
      (.node "Module" none [("body", .array (Stmt.toJsonOfEach sampleDefinition.body))]) .top =
        .ok sampleDefinition := by
  have hm : sampleDefinition.isRenderable = true := by decide +kernel
  obtain ⟨hrendering, hread⟩ := readModule_toJson hm .top
  refine ⟨hm, hrendering, hread _ ⟨Json.isNode_node rfl, ?_⟩⟩
  exact Json.holdsList_node rfl (Stmt.renderedAs_toJsonOfEach sampleDefinition.body)

end ProgramGraph
