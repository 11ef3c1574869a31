import ProgramGraph.Proofs.Reading.Misfits

/-! Every failure to read a data tree is blamed on a misfit, and its place leads there. -/
namespace ProgramGraph

open Shape

/-- A failure is blamed on a misfit below a value that is read in a role. -/
def Reading.Blames {α : Type} (r : Role) (v : Option Json) (place : Place) (m : Result α) : Prop :=
  ∀ e, m = .error e → ∃ path, e.place = place.under path ∧ r.Misfit v path

/-- A check fails on a value that does not fit, and complains of the value itself. -/
def Shape.Tests {α : Type} (shape : Of α) (w : Wanted) : Prop :=
  ∀ v, (∃ a, shape v = .ok a) ∨ (∃ x, shape v = .violation x) ∧ w.fits v = false

/-- The first issue of a check is a misfit. -/
def Shape.Finds {α : Type} (shape : Of α) (r : Role) : Prop :=
  ∀ v is, shape v = .failed is → ∃ issue more, is = issue :: more ∧ r.Misfit v issue.path

namespace Shape
variable {α : Type}

theorem tests_string : Tests string .text := by
  rintro (_ | _ | _ | _ | _ | _ | _ | _)
  all_goals first | exact .inl ⟨_, rfl⟩ | exact .inr ⟨⟨_, rfl⟩, rfl⟩

theorem tests_optional_string : Tests (optional string) .optionalText := by
  rintro (_ | _ | _ | _ | _ | _ | _ | _)
  all_goals first | exact .inl ⟨_, rfl⟩ | exact .inr ⟨⟨_, rfl⟩, rfl⟩

theorem tests_nullable_string : Tests (nullable string) .textOrNull := by
  rintro (_ | _ | _ | _ | _ | _ | _ | _)
  all_goals first | exact .inl ⟨_, rfl⟩ | exact .inr ⟨⟨_, rfl⟩, rfl⟩

theorem tests_number : Tests Reading.number .number := by
  rintro (_ | _ | _ | _ | _ | _ | _ | _)
  all_goals first | exact .inl ⟨_, rfl⟩ | exact .inr ⟨⟨_, rfl⟩, rfl⟩

theorem tests_constantValue : Tests Reading.constantValue .scalar := by
  rintro (_ | _ | _ | _ | _ | _ | _ | _)
  all_goals first | exact .inl ⟨_, rfl⟩ | exact .inr ⟨⟨_, rfl⟩, rfl⟩

theorem tests_optional_count : Tests (optional Reading.count) .optionalList := by
  rintro (_ | _ | _ | _ | _ | _ | _ | _)
  all_goals first | exact .inl ⟨_, rfl⟩ | exact .inr ⟨⟨_, rfl⟩, rfl⟩

theorem tests_optional_int : Tests (optional int) .line := by
  rintro (_ | _ | _ | x | _ | _ | _ | _)
  case some.number =>
    have hline : optional int (some (.number x)) = some <$> int (some (.number x)) := rfl
    rw [hline, int, Wanted.fits]
    cases x.toInt? with
    | none => exact .inr ⟨⟨_, rfl⟩, rfl⟩
    | some n =>
      rw [Option.any_some]
      dsimp only
      cases Binary64.isSafe n with
      | false => exact .inr ⟨⟨_, rfl⟩, rfl⟩
      | true => exact .inl ⟨_, rfl⟩
  all_goals first | exact .inl ⟨_, rfl⟩ | exact .inr ⟨⟨_, rfl⟩, rfl⟩

theorem list_eq_mistyped {item : Of α} {v : Option Json} (h : ∀ vs, v ≠ some (.array vs)) :
    list item v = mistyped .array v := by
  unfold list
  split
  · exact absurd rfl (h _)
  · rfl

theorem Finds.ne_nil {shape : Of α} {r : Role} (h : Finds shape r) (v : Option Json) :
    shape v ≠ .failed [] := by
  intro hv
  obtain ⟨issue, more, hnil, -⟩ := h _ _ hv
  cases hnil

theorem Finds.record {fields : List (String × Json) → Checked α} {r : Role}
    (h : ∀ members is, fields members = .failed is →
      ∃ issue more, is = issue :: more ∧ r.Misfit (some (.object members)) issue.path) :
    Finds (record fields) r := by
  intro v is hv
  unfold Shape.record at hv
  split at hv
  · exact h _ _ hv
  · rename_i hnot
    obtain rfl := Checked.failed.inj hv
    exact ⟨_, _, rfl, Role.Misfit.self hnot⟩

/-- The first issue among two members is that of the first one of them that has an issue. -/
theorem Finds.members {β γ : Type} {f : α → β → γ} {first : Of α} {second : Of β} {a b : String}
    {w w' : Wanted} {r : Role} (hfirst : Tests first w) (hsecond : Tests second w')
    (ha : ∀ j : Json, j.HasSlot r a (.plain w)) (hb : ∀ j : Json, j.HasSlot r b (.plain w')) :
    Finds (Shape.record fun ms => f <$> member ms a first <*> member ms b second) r := by
  refine .record fun members is h => ?_
  rw [member, member] at h
  rcases hfirst (members.lookup a) with ⟨x, hx⟩ | ⟨⟨x, hx⟩, hfits⟩ <;>
    rcases hsecond (members.lookup b) with ⟨y, hy⟩ | ⟨⟨y, hy⟩, hfits'⟩ <;> rw [hx, hy] at h
  · cases h
  · obtain rfl := Checked.failed.inj h
    exact ⟨_, _, rfl, .plain (hb _) hfits'⟩
  · obtain rfl := Checked.failed.inj h
    exact ⟨_, _, rfl, .plain (ha _) hfits⟩
  · obtain rfl := Checked.failed.inj h
    exact ⟨_, _, rfl, .plain (ha _) hfits⟩

end Shape

theorem Place.under_under (p : Place) (path rest : List Segment) :
    (p.under path).under rest = p.under (path ++ rest) := by
  simp [under]

theorem exists_error_of_mapM {ε α β : Type} {f : α → Except ε β} {as : List α} {e : ε}
    (h : as.mapM f = .error e) : ∃ a ∈ as, f a = .error e := by
  induction as with
  | nil => cases h
  | cons a as ih =>
    rw [List.mapM_cons] at h
    cases ha : f a with
    | error e' =>
      rw [ha] at h
      obtain rfl := Except.error.inj h
      exact ⟨a, List.mem_cons_self, ha⟩
    | ok b =>
      cases has : as.mapM f with
      | error e' =>
        rw [ha, has] at h
        obtain rfl := Except.error.inj h
        obtain ⟨c, hc, hfc⟩ := ih has
        exact ⟨c, List.mem_cons_of_mem _ hc, hfc⟩
      | ok bs =>
        rw [ha, has] at h
        cases h

namespace Reading

theorem list_eq_error {j : Json} {place : Place} {key : String} {e : Malformed}
    (h : list j place key = .error e) :
    e.place = (place.key key).under [] ∧ ∀ items, j.member? key ≠ some (.array items) := by
  have hmap := map_member? j key
  unfold list at h
  rw [← hmap]
  cases hp : member? j key with
  | none =>
    rw [hp] at h
    obtain rfl := Except.error.inj h
    exact ⟨rfl, nofun⟩
  | some p =>
    rw [hp] at h
    obtain ⟨v, hv⟩ := p
    cases v with
    | array items => cases h
    | _ =>
      obtain rfl := Except.error.inj h
      exact ⟨rfl, nofun⟩

theorem settle_of_settle_map {α β : Type} {f : α → β} {c : Checked α} {place : Place}
    {e : Malformed} (h : settle place (f <$> c) = .error e) : settle place c = .error e := by
  cases c with
  | ok a => cases h
  | failed is => cases is <;> exact congrArg Except.error (Except.error.inj h)

theorem finds_header {r : Role}
    (hr : r.header = [("_type", .plain .text), ("lineno", .plain .line)]) : Finds header r := by
  refine .members tests_string tests_optional_int (fun _ => .inl ?_) (fun _ => .inl ?_)
  all_goals
    rw [hr]
    decide

theorem finds_keyword : Finds keyword .keyword := by
  refine .record fun members is h => ?_
  rw [member] at h
  rcases tests_nullable_string (members.lookup "arg") with ⟨x, hx⟩ | ⟨⟨x, hx⟩, hfits⟩
  · rw [hx] at h
    cases h
  · rw [hx] at h
    obtain rfl := Checked.failed.inj h
    exact ⟨_, _, rfl, .plain (.inr (List.mem_singleton_self _)) hfits⟩

namespace Blames
variable {α β : Type} {r s : Role} {v : Option Json} {j : Json} {place : Place} {key : String}
  {m : Result α}

theorem bind {f : α → Result β} (h : Blames r v place m)
    (h' : ∀ a, m = .ok a → Blames r v place (f a)) : Blames r v place (m >>= f) := by
  intro e he
  cases m with
  | error e' =>
    obtain rfl := Except.error.inj he
    exact h _ rfl
  | ok a => exact h' a rfl e he

theorem pure (a : α) : Blames r v place (pure a) := nofun

theorem settle {shape : Of α} (h : Finds shape r) (v : Option Json) (place : Place) :
    Blames r v place (settle place (shape v)) := by
  intro e he
  cases hv : shape v with
  | ok a =>
    rw [hv] at he
    cases he
  | failed is =>
    obtain ⟨issue, more, rfl, hmisfit⟩ := h v is hv
    rw [hv] at he
    obtain rfl := Except.error.inj he
    exact ⟨_, rfl, hmisfit⟩

theorem plain {w : Wanted} {shape : Of α} (h : j.HasSlot r key (.plain w)) (hw : Tests shape w) :
    Blames r (some j) place (field j place key shape) := by
  intro e he
  unfold field at he
  rcases hw (j.member? key) with ⟨a, ha⟩ | ⟨⟨x, hx⟩, hfits⟩
  · rw [ha] at he
    cases he
  · rw [hx] at he
    obtain rfl := Except.error.inj he
    exact ⟨[.key key], place.under_under _ _, .plain h hfits⟩

/-- What fails below a member fails below the node. -/
theorem node (h : j.HasSlot r key (.node s)) (hm : Blames s (j.member? key) (place.key key) m) :
    Blames r (some j) place m := by
  intro e he
  obtain ⟨path, hplace, hmisfit⟩ := hm e he
  exact ⟨.key key :: path, hplace.trans (place.under_under _ _), .node h hmisfit⟩

theorem optional (h : j.HasSlot r key (.optional s)) (hkey : j.has key = true)
    (hm : Blames s (j.member? key) (place.key key) m) : Blames r (some j) place m := by
  intro e he
  obtain ⟨path, hplace, hmisfit⟩ := hm e he
  exact ⟨.key key :: path, hplace.trans (place.under_under _ _), .optional h hkey hmisfit⟩

theorem required (h : j.HasSlot r key (.node s)) :
    Blames r (some j) place (required j place key) := by
  intro e he
  have hmap := map_member? j key
  unfold Reading.required at he
  cases hp : member? j key with
  | some p =>
    rw [hp] at he
    cases he
  | none =>
    rw [hp] at he hmap
    obtain rfl := Except.error.inj he
    refine ⟨[.key key], place.under_under _ _, .node h ?_⟩
    rw [← hmap]
    exact Role.Misfit.self nofun

theorem part {p : Part j} (h : j.HasSlot r key (.node s))
    (hp : Reading.required j place key = .ok p) (hm : Blames s (some p.1) (place.key key) m) :
    Blames r (some j) place m :=
  node h (by rwa [required_eq_ok hp])

theorem list (h : j.HasSlot r key (.nodes s)) :
    Blames r (some j) place (list j place key) := by
  intro e he
  obtain ⟨hplace, hnot⟩ := list_eq_error he
  exact ⟨[.key key], hplace.trans (place.under_under _ _), .list h hnot⟩

/-- What fails at an item fails below the node. -/
theorem each {ps : List (Part j)} {read : Part j → Place → Result β}
    (h : j.HasSlot r key (.nodes s)) (hps : Reading.list j place key = .ok ps)
    (hread : ∀ p ∈ ps, ∀ q, Blames s (some p.1) q (read p q)) :
    Blames r (some j) place (each (place.key key) ps read) := by
  intro e he
  obtain ⟨⟨p, i⟩, hp, hread'⟩ := exists_error_of_mapM he
  have hi : ps[i]? = some p := List.mem_zipIdx_iff_getElem?.mp hp
  obtain ⟨path, hplace, hmisfit⟩ := hread p (List.mem_of_getElem? hi) _ e hread'
  refine ⟨.key key :: .index i :: path, ?_, .item (.inl h) ?_ hmisfit⟩
  · rw [hplace]
    exact ((place.key key).under_under _ _).trans (place.under_under _ _)
  · rw [items_of_list hps, List.getElem?_map, hi]
    rfl

/-- Items that are checked one by one. -/
theorem items_of_array {shape : Of α} {vs : List Json}
    (h : j.HasSlot r key (.nodes s) ∨ j.HasSlot r key (.optionalNodes s)) (hs : Finds shape s)
    (hvs : j.member? key = some (.array vs)) :
    Blames r (some j) place
      (Reading.settle (place.key key) (Shape.list shape (some (.array vs)))) := by
  intro e he
  cases hlist : Shape.list shape (some (.array vs)) with
  | ok as =>
    rw [hlist] at he
    cases he
  | failed is =>
    obtain ⟨i, v, issue, more, rest, hi, hv, rfl⟩ :=
      exists_of_list_eq_failed (fun v => hs.ne_nil (some v)) hlist
    obtain ⟨issue', more', hissue, hmisfit⟩ := hs _ _ hv
    obtain ⟨rfl, -⟩ := List.cons.inj hissue
    rw [hlist] at he
    obtain rfl := Except.error.inj he
    refine ⟨.key key :: .index i :: issue.path, place.under_under _ _, .item h ?_ hmisfit⟩
    rw [Json.items, hvs]
    exact hi

theorem items {shape : Of α} (h : j.HasSlot r key (.nodes s)) (hs : Finds shape s) :
    Blames r (some j) place (field j place key (Shape.list shape)) := by
  unfold field
  by_cases harray : ∃ vs, j.member? key = some (.array vs)
  · obtain ⟨vs, hvs⟩ := harray
    rw [hvs]
    exact items_of_array (.inl h) hs hvs
  · intro e he
    have hnot : ∀ vs, j.member? key ≠ some (.array vs) := fun vs hvs => harray ⟨vs, hvs⟩
    rw [list_eq_mistyped hnot] at he
    obtain rfl := Except.error.inj he
    exact ⟨[.key key], place.under_under _ _, .list h hnot⟩

theorem optionalItems {shape : Of α} (h : j.HasSlot r key (.optionalNodes s))
    (hs : Finds shape s) :
    Blames r (some j) place (field j place key (Shape.optional (Shape.list shape))) := by
  unfold field
  intro e he
  cases hv : j.member? key with
  | none =>
    rw [hv] at he
    cases he
  | some v =>
    have hsome : Shape.optional (Shape.list shape) (some v) =
      some <$> Shape.list shape (some v) := rfl
    rw [hv, hsome] at he
    by_cases harray : ∃ vs, v = .array vs
    · obtain ⟨vs, rfl⟩ := harray
      exact items_of_array (.inr h) hs hv e (settle_of_settle_map he)
    · have hnot : ∀ vs, v ≠ .array vs := fun vs hvs => harray ⟨vs, hvs⟩
      rw [list_eq_mistyped fun vs hvs => hnot vs (Option.some.inj hvs)] at he
      obtain rfl := Except.error.inj he
      exact ⟨[.key key], place.under_under _ _, .optionalList h hv hnot⟩

/-- An operator, or the like. -/
theorem operator (h : j.HasSlot r "op" (.node .operator)) :
    Blames r (some j) place (field j place "op" header) :=
  node h (settle (finds_header rfl) _ _)

theorem present {p : Part j} (h : j.HasSlot r key (.optional s)) (hp : present? j key = some p)
    (hm : Blames s (some p.1) (place.key key) m) : Blames r (some j) place m := by
  have hmap := map_member? j key
  have hhas := isSome_present? j key
  rw [hp] at hhas
  refine optional h hhas.symm ?_
  rw [← hmap, (Option.filter_eq_some_iff.mp hp).1]
  exact hm

end Blames

section
variable {j : Json} {place : Place}

theorem hasSlot_of_nodeType? {type key : String} {slot : Slot} {r : Role}
    (htype : j.nodeType? = some type) (h : (key, slot) ∈ r.slots type) : j.HasSlot r key slot :=
  .inr (by rwa [htype])

/-- An index that is no `Index` is an expression. -/
theorem Blames.index {α : Type} {m : Result α} (htype : j.nodeType? ≠ some "Index")
    (h : Blames .expression (some j) place m) : Blames .index (some j) place m := by
  have hslot {key : String} {slot : Slot} (hkey : j.HasSlot .expression key slot) :
      j.HasSlot .index key slot := by
    unfold Json.HasSlot at *
    rwa [Role.slots_index htype]
  intro e he
  obtain ⟨path, hplace, w, hw, hfits⟩ := h e he
  refine ⟨path, hplace, w, ?_, hfits⟩
  cases hw with
  | self => exact .self .index _
  | plain hkey => exact .plain (hslot hkey)
  | node hkey hw => exact .node (hslot hkey) hw
  | optional hkey hhas hw => exact .optional (hslot hkey) hhas hw
  | list hkey => exact .list (hslot hkey)
  | optionalList hkey => exact .optionalList (hslot hkey)
  | item hkey hi hw => exact .item (hkey.imp hslot hslot) hi hw

/-- Where the index of a subscript stands. -/
theorem unwrapIndex_eq_ok {slice index : Part j} {place' : Place}
    (h : unwrapIndex slice place = .ok (index, place')) :
    (slice.1.nodeType? = some "Index" ∧ slice.1.member? "value" = some index.1 ∧
      place' = place.key "value") ∨
    (slice.1.nodeType? ≠ some "Index" ∧ index = slice ∧ place' = place) := by
  obtain ⟨header, hh, h⟩ := except_bind_eq_ok.mp h
  have htype := nodeType?_of_header hh
  split at h
  · rename_i hindex
    obtain ⟨p, hp, h⟩ := except_bind_eq_ok.mp h
    obtain ⟨rfl, rfl⟩ := Prod.mk.inj (except_pure_eq_ok.mp h)
    exact .inl ⟨htype.trans (congrArg some hindex), required_eq_ok hp, rfl⟩
  · rename_i hindex
    obtain ⟨rfl, rfl⟩ := Prod.mk.inj (except_pure_eq_ok.mp h)
    refine .inr ⟨?_, rfl, rfl⟩
    rw [htype]
    exact fun he => hindex (Option.some.inj he)

theorem blames_unwrapIndex (slice : Part j) :
    Blames .index (some slice.1) place (unwrapIndex slice place) := by
  refine .bind (.settle (finds_header rfl) _ _) fun header hh => ?_
  split
  · rename_i hindex
    have htype : slice.1.nodeType? = some "Index" :=
      (nodeType?_of_header hh).trans (congrArg some hindex)
    exact .bind (.required (s := .expression) (hasSlot_of_nodeType? htype (by decide)))
      fun _ _ => .pure _
  · exact .pure _

theorem blames_constant {type : String} (h : j.nodeType? = some type)
    (htype : type = "Constant" ∨ type = "NameConstant") (line : Option Int) :
    Blames .expression (some j) place (constant j place line) := by
  have hvalue : j.HasSlot .expression "value" (.plain .scalar) :=
    hasSlot_of_nodeType? h (by rcases htype with rfl | rfl <;> decide)
  have hdeclared : j.HasSlot .expression "_valueType" (.plain .optionalText) :=
    hasSlot_of_nodeType? h (by rcases htype with rfl | rfl <;> decide)
  refine .bind (.plain hvalue tests_constantValue) fun value _ => ?_
  refine .bind (.plain hdeclared tests_optional_string) fun declared _ => ?_
  repeat' split
  all_goals exact .pure _

theorem blames_readExpr (j : Json) (place : Place) :
    Blames .expression (some j) place (readExpr j place) := by
  rw [readExpr]
  refine .bind (.settle (finds_header rfl) _ _) fun header hh => ?_
  have hslot {type key : String} {slot : Slot} (htype : header.type = type)
      (h : (key, slot) ∈ Role.expressionSlots type) : j.HasSlot .expression key slot :=
    hasSlot_of_nodeType? ((nodeType?_of_header hh).trans (congrArg some htype)) h
  split
  case h_1 htype => exact blames_constant (nodeType?_of_header hh) (.inl htype) _
  case h_2 htype => exact blames_constant (nodeType?_of_header hh) (.inr htype) _
  case h_3 htype =>
    have hn : j.HasSlot .expression "n" (.plain .number) := hslot htype (by decide)
    exact .bind (.plain hn tests_number) fun _ _ => .pure _
  case h_4 htype =>
    have hs : j.HasSlot .expression "s" (.plain .text) := hslot htype (by decide)
    exact .bind (.plain hs tests_string) fun _ _ => .pure _
  case h_5 htype =>
    have hid : j.HasSlot .expression "id" (.plain .text) := hslot htype (by decide)
    exact .bind (.plain hid tests_string) fun _ _ => .pure _
  case h_6 htype =>
    have hvalue : j.HasSlot .expression "value" (.node .expression) := hslot htype (by decide)
    have hattr : j.HasSlot .expression "attr" (.plain .text) := hslot htype (by decide)
    refine .bind (.required hvalue) fun value hp => ?_
    refine .bind (.plain hattr tests_string) fun attr _ => ?_
    exact .bind (.part hvalue hp (blames_readExpr value.1 _)) fun _ _ => .pure _
  case h_7 htype =>
    have hleft : j.HasSlot .expression "left" (.node .expression) := hslot htype (by decide)
    have hop : j.HasSlot .expression "op" (.node .operator) := hslot htype (by decide)
    have hright : j.HasSlot .expression "right" (.node .expression) := hslot htype (by decide)
    refine .bind (.required hleft) fun left hl => ?_
    refine .bind (.operator hop) fun op _ => ?_
    refine .bind (.required hright) fun right hr => ?_
    split
    · exact .pure _
    · refine .bind (.part hleft hl (blames_readExpr left.1 _)) fun _ _ => ?_
      exact .bind (.part hright hr (blames_readExpr right.1 _)) fun _ _ => .pure _
  case h_8 htype =>
    have hop : j.HasSlot .expression "op" (.node .operator) := hslot htype (by decide)
    have hoperand : j.HasSlot .expression "operand" (.node .expression) := hslot htype (by decide)
    refine .bind (.operator hop) fun op _ => ?_
    refine .bind (.required hoperand) fun operand hp => ?_
    split
    · exact .pure _
    · exact .bind (.part hoperand hp (blames_readExpr operand.1 _)) fun _ _ => .pure _
  case h_9 htype =>
    have hop : j.HasSlot .expression "op" (.node .operator) := hslot htype (by decide)
    have hvalues : j.HasSlot .expression "values" (.nodes .expression) := hslot htype (by decide)
    refine .bind (.operator hop) fun op _ => ?_
    refine .bind (.list hvalues) fun values hp => ?_
    split
    · exact .pure _
    · exact .bind (.each hvalues hp fun v _ q => blames_readExpr v.1 q) fun _ _ => .pure _
  case h_10 htype =>
    have hleft : j.HasSlot .expression "left" (.node .expression) := hslot htype (by decide)
    have hops : j.HasSlot .expression "ops" (.nodes .operator) := hslot htype (by decide)
    have hcomparators : j.HasSlot .expression "comparators" (.nodes .expression) :=
      hslot htype (by decide)
    refine .bind (.required hleft) fun left hl => ?_
    refine .bind (.items hops (finds_header rfl)) fun ops _ => ?_
    refine .bind (.list hcomparators) fun comparators hc => ?_
    split
    · exact .pure _
    · refine .bind (.part hleft hl (blames_readExpr left.1 _)) fun _ _ => ?_
      exact .bind (.each hcomparators hc fun v _ q => blames_readExpr v.1 q) fun _ _ => .pure _
  case h_11 htype =>
    have hfunc : j.HasSlot .expression "func" (.node .expression) := hslot htype (by decide)
    have hargs : j.HasSlot .expression "args" (.nodes .expression) := hslot htype (by decide)
    have hkeywords : j.HasSlot .expression "keywords" (.optionalNodes .keyword) :=
      hslot htype (by decide)
    refine .bind (.required hfunc) fun func hf => ?_
    refine .bind (.list hargs) fun args ha => ?_
    refine .bind (.optionalItems hkeywords finds_keyword) fun keywords _ => ?_
    refine .bind (.part hfunc hf (blames_readExpr func.1 _)) fun _ _ => ?_
    exact .bind (.each hargs ha fun v _ q => blames_readExpr v.1 q) fun _ _ => .pure _
  case h_12 htype =>
    have hvalue : j.HasSlot .expression "value" (.node .expression) := hslot htype (by decide)
    have hslice : j.HasSlot .expression "slice" (.node .index) := hslot htype (by decide)
    refine .bind (.required hvalue) fun value hv => ?_
    refine .bind (.required hslice) fun slice hs => ?_
    refine .bind (.part hvalue hv (blames_readExpr value.1 _)) fun _ _ => ?_
    refine .bind (.part hslice hs (blames_unwrapIndex slice)) fun unwrapped hu => ?_
    -- The index is below the slice or the slice itself, and so is its place.
    refine .bind (.part hslice hs ?_) fun _ _ => .pure _
    rcases unwrapIndex_eq_ok hu with ⟨hindex, hmember, hplace⟩ | ⟨hindex, hsame, hplace⟩
    · have hwrapped : slice.1.HasSlot .index "value" (.node .expression) :=
        hasSlot_of_nodeType? hindex (by decide)
      rw [hplace]
      refine .node hwrapped ?_
      rw [hmember]
      exact blames_readExpr unwrapped.1.1 _
    · rw [hplace]
      refine .index hindex ?_
      rw [← hsame]
      exact blames_readExpr unwrapped.1.1 _
  case h_13 htype | h_14 htype =>
    have helts : j.HasSlot .expression "elts" (.nodes .expression) := hslot htype (by decide)
    refine .bind (.list helts) fun elements hp => ?_
    exact .bind (.each helts hp fun v _ q => blames_readExpr v.1 q) fun _ _ => .pure _
  case h_15 => exact .pure _
termination_by sizeOf j
decreasing_by all_goals exact sizeOf_part_lt _

theorem blames_readParameter (j : Json) (place : Place) :
    Blames .parameter (some j) place (readParameter j place) := by
  have hname : j.HasSlot .parameter "arg" (.plain .text) := .inr (.head _)
  have hannotation : j.HasSlot .parameter "annotation" (.optional .expression) :=
    .inr (.tail _ (.head _))
  refine .bind (.settle (finds_header rfl) _ _) fun _ _ => ?_
  refine .bind (.plain hname tests_string) fun _ _ => ?_
  split
  · exact .pure _
  · rename_i a ha
    exact .bind (.present hannotation ha (blames_readExpr a.1 _)) fun _ _ => .pure _

theorem blames_plainParameters (j : Json) (place : Place) :
    Blames .parameters (some j) place (plainParameters j place) := by
  have hargs : j.HasSlot .parameters "args" (.nodes .parameter) := .inr (.head _)
  have hpositionOnly : j.HasSlot .parameters "posonlyargs" (.plain .optionalList) :=
    .inr (.tail _ (.head _))
  have hkeywordOnly : j.HasSlot .parameters "kwonlyargs" (.plain .optionalList) :=
    .inr (.tail _ (.tail _ (.head _)))
  refine .bind (.settle (.record fun _ _ h => by cases h) _ _) fun _ _ => ?_
  refine .bind (.list hargs) fun args _ => ?_
  refine .bind (.plain hpositionOnly tests_optional_count) fun _ _ => ?_
  refine .bind (.plain hkeywordOnly tests_optional_count) fun _ _ => ?_
  dsimp only
  split <;> exact .pure _

theorem list_of_plainParameters {ps : List (Part j)} (h : plainParameters j place = .ok (some ps)) :
    list j place "args" = .ok ps := by
  obtain ⟨_, -, h⟩ := except_bind_eq_ok.mp h
  obtain ⟨args, hargs, h⟩ := except_bind_eq_ok.mp h
  obtain ⟨_, -, h⟩ := except_bind_eq_ok.mp h
  obtain ⟨_, -, h⟩ := except_bind_eq_ok.mp h
  dsimp only at h
  split at h
  · cases h
  · obtain rfl := Option.some.inj (except_pure_eq_ok.mp h)
    exact hargs

theorem blames_readStmt (j : Json) (place : Place) :
    Blames .statement (some j) place (readStmt j place) := by
  rw [readStmt]
  refine .bind (.settle (finds_header rfl) _ _) fun header hh => ?_
  have hslot {type key : String} {slot : Slot} (htype : header.type = type)
      (h : (key, slot) ∈ Role.statementSlots type) : j.HasSlot .statement key slot :=
    hasSlot_of_nodeType? ((nodeType?_of_header hh).trans (congrArg some htype)) h
  split
  case h_1 htype =>
    have hname : j.HasSlot .statement "name" (.plain .text) := hslot htype (by decide)
    have hargs : j.HasSlot .statement "args" (.node .parameters) := hslot htype (by decide)
    have hbody : j.HasSlot .statement "body" (.nodes .statement) := hslot htype (by decide)
    refine .bind (.plain hname tests_string) fun name _ => ?_
    refine .bind (.required hargs) fun arguments ha => ?_
    refine .bind (.list hbody) fun body hb => ?_
    refine .bind (.part hargs ha (blames_plainParameters arguments.1 _)) fun plain hp => ?_
    split
    · exact .pure _
    · rename_i parameters
      have hparameters : arguments.1.HasSlot .parameters "args" (.nodes .parameter) :=
        .inr (.head _)
      refine .bind (.part hargs ha ?_) fun _ _ => ?_
      · exact .each hparameters (list_of_plainParameters hp) fun a _ q => blames_readParameter a.1 q
      · exact .bind (.each hbody hb fun s _ q => blames_readStmt s.1 q) fun _ _ => .pure _
  case h_2 htype =>
    have htargets : j.HasSlot .statement "targets" (.nodes .expression) := hslot htype (by decide)
    have hvalue : j.HasSlot .statement "value" (.node .expression) := hslot htype (by decide)
    refine .bind (.list htargets) fun targets ht => ?_
    refine .bind (.required hvalue) fun value hv => ?_
    refine .bind (.each htargets ht fun t _ q => blames_readExpr t.1 q) fun _ _ => ?_
    exact .bind (.part hvalue hv (blames_readExpr value.1 _)) fun _ _ => .pure _
  case h_3 htype =>
    have htarget : j.HasSlot .statement "target" (.node .expression) := hslot htype (by decide)
    have htypeExpr : j.HasSlot .statement "annotation" (.node .expression) :=
      hslot htype (by decide)
    have hvalue : j.HasSlot .statement "value" (.optional .expression) := hslot htype (by decide)
    refine .bind (.required htarget) fun target ht => ?_
    refine .bind (.required htypeExpr) fun typeExpr ha => ?_
    refine .bind (.part htarget ht (blames_readExpr target.1 _)) fun _ _ => ?_
    refine .bind (.part htypeExpr ha (blames_readExpr typeExpr.1 _)) fun _ _ => ?_
    split
    · exact .pure _
    · rename_i value hv
      exact .bind (.present hvalue hv (blames_readExpr value.1 _)) fun _ _ => .pure _
  case h_4 htype =>
    have htest : j.HasSlot .statement "test" (.node .expression) := hslot htype (by decide)
    have hbody : j.HasSlot .statement "body" (.nodes .statement) := hslot htype (by decide)
    have horelse : j.HasSlot .statement "orelse" (.nodes .statement) := hslot htype (by decide)
    refine .bind (.required htest) fun test ht => ?_
    refine .bind (.list hbody) fun body hb => ?_
    refine .bind (.list horelse) fun orelse ho => ?_
    refine .bind (.part htest ht (blames_readExpr test.1 _)) fun _ _ => ?_
    refine .bind (.each hbody hb fun s _ q => blames_readStmt s.1 q) fun _ _ => ?_
    exact .bind (.each horelse ho fun s _ q => blames_readStmt s.1 q) fun _ _ => .pure _
  case h_5 htype =>
    have htarget : j.HasSlot .statement "target" (.node .expression) := hslot htype (by decide)
    have hiter : j.HasSlot .statement "iter" (.node .expression) := hslot htype (by decide)
    have hbody : j.HasSlot .statement "body" (.nodes .statement) := hslot htype (by decide)
    have horelse : j.HasSlot .statement "orelse" (.nodes .statement) := hslot htype (by decide)
    refine .bind (.required htarget) fun target ht => ?_
    refine .bind (.required hiter) fun iter hi => ?_
    refine .bind (.list hbody) fun body hb => ?_
    refine .bind (.list horelse) fun orelse ho => ?_
    refine .bind (.part htarget ht (blames_readExpr target.1 _)) fun _ _ => ?_
    refine .bind (.part hiter hi (blames_readExpr iter.1 _)) fun _ _ => ?_
    refine .bind (.each hbody hb fun s _ q => blames_readStmt s.1 q) fun _ _ => ?_
    exact .bind (.each horelse ho fun s _ q => blames_readStmt s.1 q) fun _ _ => .pure _
  case h_6 htype =>
    have hvalue : j.HasSlot .statement "value" (.node .expression) := hslot htype (by decide)
    refine .bind (.required hvalue) fun value hv => ?_
    exact .bind (.part hvalue hv (blames_readExpr value.1 _)) fun _ _ => .pure _
  case h_7 => exact .pure _
termination_by sizeOf j
decreasing_by all_goals exact sizeOf_part_lt _

theorem blames_readModule (j : Json) (place : Place) :
    Blames .program (some j) place (readModule j place) := by
  refine .bind (.settle (finds_header rfl) _ _) fun header hh => ?_
  have htype := nodeType?_of_header hh
  dsimp only
  split
  · rename_i hother
    intro e he
    obtain rfl := Except.error.inj he
    refine ⟨[], by simp [Place.under], .program, .self .program _, ?_⟩
    simpa [Json.at?, Wanted.fits, htype] using hother
  · rename_i hmodule
    have hbody : j.HasSlot .program "body" (.nodes .statement) :=
      hasSlot_of_nodeType? (htype.trans (congrArg some (not_not.mp hmodule))) (by decide)
    refine .bind (.list hbody) fun body hb => ?_
    exact .bind (.each hbody hb fun s _ q => blames_readStmt s.1 q) fun _ _ => .pure _

/-- The place in a diagnostic is a path from the root of the tree, without dots in its segments.
All its steps exist but for the last one, and what it leads to, or the lack of it, is not what the
grammar wants there. -/
theorem misfit_at_path {e : Malformed} (h : readModule j .top = .error e) :
    e.diagnostic.code = .invalidTree ∧
      ∃ path : List Segment,
        e.diagnostic.path = some (".".intercalate ("$" :: path.map Segment.text)) ∧
        (∀ s ∈ path, '.' ∉ s.text.toList) ∧ (j.at? path.dropLast).isSome = true ∧
        ∃ w, Role.program.Wants (some j) path w ∧ w.fits (j.at? path) = false := by
  obtain ⟨path, hplace, w, hw, hfits⟩ := blames_readModule j .top e h
  have htext : e.place.text = ".".intercalate ("$" :: path.map Segment.text) := by
    rw [hplace]
    rfl
  exact ⟨rfl, path, congrArg some htext, hw.dot_notMem, hw.isSome_dropLast j rfl, w, hw, hfits⟩

end
end Reading

/-- A module with a subscript in the older form, whose index is a name without a text. -/
def Json.sampleNameless : Json :=
  let array : Json := .object [("_type", .string "Name"), ("id", .string "x")]
  let index : Json := .object [("_type", .string "Index"),
    ("value", .object [("_type", .string "Name"), ("lineno", .ofInt 3)])]
  let subscript : Json := .object [("_type", .string "Subscript"), ("value", array),
    ("slice", index)]
  .object [("_type", .string "Module"),
    ("body", .array [.object [("_type", .string "Expr"), ("value", subscript)]])]

theorem Reading.misfit_at_path_sample :
    ∃ e, readModule Json.sampleNameless .top = .error e ∧
      e.diagnostic.path = some "$.body.0.value.slice.value.id" ∧
      ∃ path : List Segment, e.diagnostic.path =
        some (".".intercalate ("$" :: path.map Segment.text)) ∧
        ∃ w, Role.program.Wants (some Json.sampleNameless) path w ∧
          w.fits (Json.sampleNameless.at? path) = false := by
  have hpath : (match readModule Json.sampleNameless .top with
      | .ok _ => none
      | .error e => e.diagnostic.path) = some "$.body.0.value.slice.value.id" := by
    decide +kernel
  cases hread : readModule Json.sampleNameless .top with
  | ok m =>
    rw [hread] at hpath
    cases hpath
  | error e =>
    rw [hread] at hpath
    obtain ⟨-, path, htext, -, -, w, hw, hfits⟩ := misfit_at_path hread
    exact ⟨e, rfl, hpath, path, htext, w, hw, hfits⟩

end ProgramGraph
