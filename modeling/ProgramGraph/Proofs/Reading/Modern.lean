import ProgramGraph.Proofs.Reading.Traversal

/-! Newer forms of data trees. Older ones have nodes of their own for the literals, and wrap the
index of a subscript. -/
namespace ProgramGraph

open Shape

namespace Json

/-- A constant with the line of a node. -/
def asConstant (j : Json) (value : Json) : Json :=
  .object (("_type", .string "Constant") :: ("value", value) ::
    (j.member? "lineno").toList.map fun line => ("lineno", line))

/-- A node of another class with the same members. -/
def retyped (type : String) : Json → Json
  | object members =>
    object (members.map fun (key, v) => (key, if key = "_type" then .string type else v))
  | j => j

/-- The newer form of a literal. -/
def modernLiteral (j : Json) : Json :=
  match j.nodeType? with
  | some "Num" => (j.member? "n").elim j j.asConstant
  | some "Str" => (j.member? "s").elim j j.asConstant
  | some "NameConstant" => j.retyped "Constant"
  | _ => j

/-- The newer form of a node, once the nodes below it have theirs. -/
def modernNode : Role → Json → Json
  | .expression, j => j.modernLiteral
  | .index, j => if j.nodeType? = some "Index" then (j.member? "value").getD j else j.modernLiteral
  | _, j => j

/-- The newer form of a tree. -/
def modern (r : Role) (j : Json) : Json := j.mapNodes modernNode r

example : (object [("_type", .string "Index"), ("value", .object [("_type", .string "Str"),
      ("s", .string "a"), ("lineno", .ofInt 3)])]).modern .index =
    .object [("_type", .string "Constant"), ("value", .string "a"), ("lineno", .ofInt 3)] :=
  rfl

/-- Whether a literal of an older tree carries a value of its kind. -/
def literalFits (j : Json) : Bool :=
  match j.nodeType? with
  | some "Num" => Wanted.number.fits (j.member? "n")
  | some "Str" => Wanted.text.fits (j.member? "s")
  | _ => true

/-- Whether a node, if it is an older one, carries what its newer form keeps. An `Index` does not
wrap another one, and its line, which is lost, satisfies a condition. -/
def hasModernForm (line : Option Json → Bool) : Role → Json → Bool
  | .expression, j => j.literalFits
  | .index, j =>
    if j.nodeType? = some "Index" then
      line (j.member? "lineno") && !(j.member? "value").any (·.nodeType? = some "Index")
    else j.literalFits
  | _, _ => true

/-- Whether all older nodes of a tree carry what their newer forms keep. -/
def hasModern (line : Option Json → Bool) (r : Role) (j : Json) : Bool :=
  j.everyNode (hasModernForm line) r

end Json

/-- The class of a node in newer trees. -/
def modernClass : String → String
  | "Num" | "Str" | "NameConstant" => "Constant"
  | type => type

theorem eq_of_modernClass_ne {type : String} (h : modernClass type ≠ type) :
    type = "Num" ∨ type = "Str" ∨ type = "NameConstant" := by
  unfold modernClass at h
  split at h
  · exact .inl rfl
  · exact .inr (.inl rfl)
  · exact .inr (.inr rfl)
  · exact absurd rfl h

namespace Json
variable {j : Json} {r : Role} {type : String} {line : Option Json → Bool}

theorem member?_retyped (type key : String) :
    (j.retyped type).member? key =
      (j.member? key).map fun v => if key = "_type" then .string type else v := by
  cases j with
  | object members =>
    change (members.map _).lookup key = (members.lookup key).map _
    induction members with
    | nil => rfl
    | cons e rest ih =>
      obtain ⟨k, v⟩ := e
      rw [List.map_cons, List.lookup_cons, List.lookup_cons]
      by_cases hk : key = k
      · rw [hk, beq_self_eq_true]
        rfl
      · rw [beq_false_of_ne hk, ih]
  | _ => rfl

theorem nodeType?_retyped {type' : String} (h : j.nodeType? = some type) :
    (j.retyped type').nodeType? = some type' := by
  unfold nodeType? at h
  rw [nodeType?, member?_retyped]
  split at h
  · rename_i s hs
    rw [hs]
    rfl
  · cases h

theorem member?_asConstant_lineno (v : Json) :
    (j.asConstant v).member? "lineno" = j.member? "lineno" := by
  have hmember : (j.asConstant v).member? "lineno" =
      ((j.member? "lineno").toList.map fun line => ("lineno", line)).lookup "lineno" := rfl
  rw [hmember]
  cases j.member? "lineno" <;> rfl

theorem exists_number (h : j.literalFits = true) (htype : j.nodeType? = some "Num") :
    ∃ x, j.member? "n" = some (.number x) ∧ j.modernLiteral = j.asConstant (.number x) := by
  unfold literalFits at h
  unfold modernLiteral
  rw [htype] at h ⊢
  cases hn : j.member? "n" with
  | none =>
    rw [hn] at h
    cases h
  | some v =>
    rw [hn] at h
    cases v with
    | number x => exact ⟨x, rfl, rfl⟩
    | _ => cases h

theorem exists_string (h : j.literalFits = true) (htype : j.nodeType? = some "Str") :
    ∃ s, j.member? "s" = some (.string s) ∧ j.modernLiteral = j.asConstant (.string s) := by
  unfold literalFits at h
  unfold modernLiteral
  rw [htype] at h ⊢
  cases hs : j.member? "s" with
  | none =>
    rw [hs] at h
    cases h
  | some v =>
    rw [hs] at h
    cases v with
    | string s => exact ⟨s, rfl, rfl⟩
    | _ => cases h

theorem modernLiteral_nameConstant (htype : j.nodeType? = some "NameConstant") :
    j.modernLiteral = j.retyped "Constant" := by
  unfold modernLiteral
  rw [htype]
  rfl

theorem modernLiteral_eq_self (htype : ∀ type, j.nodeType? = some type → modernClass type = type) :
    j.modernLiteral = j := by
  unfold modernLiteral
  split
  · rename_i he
    exact absurd (htype _ he) (by decide)
  · rename_i he
    exact absurd (htype _ he) (by decide)
  · rename_i he
    exact absurd (htype _ he) (by decide)
  · rfl

theorem nodeType?_modernLiteral (h : j.literalFits = true) :
    j.modernLiteral.nodeType? = j.nodeType?.map modernClass := by
  by_cases htype : ∀ type, j.nodeType? = some type → modernClass type = type
  · rw [modernLiteral_eq_self htype]
    cases hj : j.nodeType? with
    | none => rfl
    | some type => exact congrArg some (htype type hj).symm
  · obtain ⟨type, htype⟩ := not_forall.mp htype
    obtain ⟨htype, holder⟩ := Classical.not_imp.mp htype
    rcases eq_of_modernClass_ne holder with rfl | rfl | rfl
    · obtain ⟨x, -, hmodern⟩ := exists_number h htype
      rw [hmodern, htype]
      rfl
    · obtain ⟨s, -, hmodern⟩ := exists_string h htype
      rw [hmodern, htype]
      rfl
    · rw [modernLiteral_nameConstant htype, nodeType?_retyped htype, htype]
      rfl

theorem member?_modernLiteral_lineno : j.modernLiteral.member? "lineno" = j.member? "lineno" := by
  unfold modernLiteral
  split
  · cases j.member? "n" with
    | none => rfl
    | some v => exact member?_asConstant_lineno v
  · cases j.member? "s" with
    | none => rfl
    | some v => exact member?_asConstant_lineno v
  · exact (member?_retyped _ _).trans (congrFun Option.map_id _)
  · rfl

theorem modernLiteral_ne_null (h : j ≠ .null) : j.modernLiteral ≠ .null := by
  unfold modernLiteral
  split
  · cases j.member? "n" with
    | none => exact h
    | some v => exact nofun
  · cases j.member? "s" with
    | none => exact h
    | some v => exact nofun
  · cases j with
    | null => exact absurd rfl h
    | _ => exact nofun
  · exact h

theorem modern_eq (r : Role) (j : Json) : j.modern r = modernNode r (j.mapBelow modernNode r) := by
  cases j with
  | object members => rfl
  | _ => cases r <;> rfl

theorem modern_expression_ne_null (h : j ≠ .null) : j.modern .expression ≠ .null := by
  rw [modern_eq]
  refine modernLiteral_ne_null ?_
  cases j with
  | null => exact absurd rfl h
  | _ => exact nofun

/-- An older literal has no nodes below. -/
theorem modern_of_older (htype : j.nodeType? = some type) (holder : modernClass type ≠ type) :
    j.modern .expression = j.modernLiteral := by
  have hplain : (Role.expression.slots (j.nodeType?.getD "")).all (·.2.isPlain) = true := by
    rw [htype]
    rcases eq_of_modernClass_ne holder with rfl | rfl | rfl <;> rfl
  rw [modern_eq, mapBelow_of_isPlain hplain]
  rfl

theorem modern_of_newer (htype : ∀ type, j.nodeType? = some type → modernClass type = type) :
    j.modern .expression = j.mapBelow modernNode .expression := by
  rw [modern_eq]
  apply modernLiteral_eq_self
  rwa [nodeType?_mapBelow]

theorem literalFits_of_hasModern (h : j.hasModern line .expression = true)
    (htype : j.nodeType? = some type) : j.literalFits = true :=
  of_everyNode h htype

theorem nodeType?_modern_expression (h : j.hasModern line .expression = true) :
    (j.modern .expression).nodeType? = j.nodeType?.map modernClass := by
  by_cases htype : ∀ type, j.nodeType? = some type → modernClass type = type
  · rw [modern_of_newer htype, nodeType?_mapBelow]
    cases hj : j.nodeType? with
    | none => rfl
    | some type => exact congrArg some (htype type hj).symm
  · obtain ⟨type, htype⟩ := not_forall.mp htype
    obtain ⟨htype, holder⟩ := Classical.not_imp.mp htype
    rw [modern_of_older htype holder]
    exact nodeType?_modernLiteral (literalFits_of_hasModern h htype)

/-- The newer form of an expression is no `Index` either. -/
theorem nodeType?_modern_ne_index (h : j.hasModern line .expression = true)
    (htype : j.nodeType? ≠ some "Index") : (j.modern .expression).nodeType? ≠ some "Index" := by
  rw [nodeType?_modern_expression h]
  intro he
  obtain ⟨type, hj, hclass⟩ := Option.map_eq_some_iff.mp he
  by_cases holder : modernClass type = type
  · exact htype (hj.trans (congrArg some (holder.symm.trans hclass)))
  · rcases eq_of_modernClass_ne holder with rfl | rfl | rfl <;> exact absurd hclass (by decide)

theorem modern_index (htype : j.nodeType? ≠ some "Index") :
    j.modern .index = j.modern .expression := by
  have hbelow : j.mapBelow modernNode .index = j.mapBelow modernNode .expression := by
    cases j with
    | object members =>
      rw [mapBelow, mapBelow, Role.slots_index htype]
      rfl
    | _ => rfl
  rw [modern_eq, modern_eq, hbelow]
  exact if_neg (by rwa [nodeType?_mapBelow])

theorem hasModern_index (htype : j.nodeType? ≠ some "Index")
    (h : j.hasModern line .index = true) : j.hasModern line .expression = true := by
  cases j with
  | object members =>
    have hnode : hasModernForm line .index (object members) = (object members).literalFits := by
      rw [hasModernForm, if_neg htype]
    rw [hasModern, everyNode, hnode, Role.slots_index htype] at h
    exact h
  | _ => rfl

/-- What a wrapped index stands for is its newer form. -/
theorem modern_wrapped (htype : j.nodeType? = some "Index") {v : Json}
    (hv : j.member? "value" = some v) : j.modern .index = v.modern .expression := by
  rw [modern_eq, modernNode, nodeType?_mapBelow, if_pos htype, member?_mapBelow, htype, hv]
  rfl

theorem member?_modern_bare (htype : j.nodeType? = some "Index")
    (hv : j.member? "value" = none) :
    (j.modern .index).nodeType? = some "Index" ∧ (j.modern .index).member? "value" = none := by
  have hbelow : (j.mapBelow modernNode .index).member? "value" = none := by
    rw [member?_mapBelow, hv]
    rfl
  rw [modern_eq, modernNode, nodeType?_mapBelow, if_pos htype, hbelow]
  exact ⟨nodeType?_mapBelow.trans htype, hbelow⟩

/-- Operators have no older form, -/
theorem mapNodes_operator (v : Json) : v.mapNodes modernNode .operator = v := by
  cases v with
  | object members => exact congrArg object (mapMembers_of_isPlain rfl members)
  | _ => rfl

/-- nor have keywords. -/
theorem mapNodes_keyword (v : Json) : v.mapNodes modernNode .keyword = v := by
  cases v with
  | object members => exact congrArg object (mapMembers_of_isPlain rfl members)
  | _ => rfl

theorem member?_asConstant_valueType (v : Json) :
    (j.asConstant v).member? "_valueType" = none := by
  have hmember : (j.asConstant v).member? "_valueType" =
      ((j.member? "lineno").toList.map fun line => ("lineno", line)).lookup "_valueType" := rfl
  rw [hmember]
  cases j.member? "lineno" <;> rfl

end Json
end ProgramGraph
