import ProgramGraph.Graph.Encoding
import ProgramGraph.Graph.Schema
import ProgramGraph.Proofs.Nearest

/-! Documents that fit their schema are read back from their data trees. -/
namespace ProgramGraph

open Shape

def Reference.Fits (r : Reference) : Prop := r.name ≠ "" ∧ Binary64.isSafe r.index = true

namespace Graph

def Source.Fits : Source → Prop
  | .var name | .function name => name ≠ ""

def Input.Fits : Input → Prop
  | .ref r => r.Fits
  | .function name => name ≠ ""

def Payload.Fits : Payload → Prop
  | .lambda name line => name ≠ "" ∧ ∀ n ∈ line, Binary64.isSafe n = true
  | .literal .. => True

def Record.Fits : Record → Prop
  | .value name output input => name ≠ "" ∧ output.Fits ∧ ∀ i ∈ input, i.Fits
  | .call function input => function ≠ "" ∧ ∀ r ∈ input, r.Fits
  | .loop name inputs => name ≠ "" ∧ ∀ x ∈ inputs, x ≠ ""

def Declaration.Fits (d : Declaration) : Prop := d.name ≠ ""

def RangeBound.Fits : RangeBound → Prop
  | .literal n => Binary64.isSafe n = true
  | .ref r => r.Fits

def Range.Fits (r : Range) : Prop := r.start.Fits ∧ r.stop.Fits

def Function.Fits : Function → Prop
  | .assign name target sources payload =>
    name ≠ "" ∧ target ≠ "" ∧ (∀ s ∈ sources, s.Fits) ∧ payload.Fits
  | .decision name target sources => name ≠ "" ∧ target ≠ "" ∧ ∀ s ∈ sources, s.Fits
  | .container name input vars body =>
    name ≠ "" ∧ (∀ d ∈ input, d.Fits) ∧ (∀ d ∈ vars, d.Fits) ∧ ∀ r ∈ body, r.Fits
  | .loopPlate name input index range body =>
    name ≠ "" ∧ (∀ x ∈ input, x ≠ "") ∧ index ≠ "" ∧ range.Fits ∧ ∀ r ∈ body, r.Fits

/-- Names are not empty, integers are safe, the date is one. -/
structure Document.Fits (d : Document) : Prop where
  name : d.name ≠ ""
  dateCreated : isDate d.dateCreated = true
  functions : ∀ f ∈ d.functions, f.Fits
  body : ∀ r ∈ d.body, r.Fits

end Graph

namespace Checked
variable {α β : Type}

@[simp] theorem map_ok (f : α → β) (a : α) : f <$> (ok a : Checked α) = ok (f a) := rfl

@[simp] theorem seq_ok (f : α → β) (a : α) : ok f <*> (ok a : Checked α) = ok (f a) := rfl

@[simp] theorem under_ok (s : Segment) (a : α) : under s (ok a) = ok a := rfl

@[simp] theorem toOption_ok (a : α) : (ok a).toOption = some a := rfl

theorem toOption_eq_some {c : Checked α} {a : α} : c.toOption = some a ↔ c = ok a := by
  constructor
  · intro h
    cases c with
    | ok b => exact congrArg ok (Option.some.inj h)
    | failed is => cases h
  · rintro rfl
    rfl

@[simp] theorem toOption_map (f : α → β) (c : Checked α) :
    (f <$> c).toOption = c.toOption.map f := by
  cases c <;> rfl

/-- What has a further issue is no value. -/
@[simp] theorem toOption_also (c : Checked α) (i : Issue) (more : List Issue) :
    (c.also (i :: more)).toOption = none := by
  cases c <;> rfl

end Checked

namespace Shape
variable {α : Type}

theorem member_cons (members : List (String × Json)) (k key : String) (j : Json) (shape : Of α) :
    member ((k, j) :: members) key shape =
      if key = k then (shape (some j)).under (.key key) else member members key shape := by
  unfold member
  rw [List.lookup_cons]
  by_cases h : key = k
  · simp [h]
  · have hb : (key == k) = false := by simpa using h
    simp [h, hb]

theorem nullable_eq {shape : Of α} {j : Json} {a : α} (h : shape (some j) = .ok a)
    (hj : j ≠ .null) : nullable shape (some j) = .ok (some a) := by
  cases j with
  | null => exact absurd rfl hj
  | _ => exact congrArg (some <$> ·) h

theorem list_strings {l : List String} (h : ∀ s ∈ l, s ≠ "") :
    list filled (some (Graph.strings l)) = .ok l :=
  list_array fun s hs => filled_string (h s hs)

/-- The alternatives before the one that fits are passed over. -/
theorem alternatives_eq {options : List (Of α)} {j : Option Json} {a : α}
    (h : (options.map (· j)).findSome? Checked.toOption = some a) :
    alternatives options j = .ok a := by
  unfold alternatives
  simp only [h]

end Shape

theorem Domain.schema_name (d : Domain) : Domain.schema (some (.string d.name)) = .ok d := by
  cases d <;> rfl

theorem Reference.schema_toJson {r : Reference} (h : r.Fits) :
    Reference.schema (some r.toJson) = .ok r := by
  have hname := filled_string h.1
  have hindex := int_ofInt h.2
  simp [schema, toJson, object, member_cons, hname, hindex]

namespace Graph

theorem Source.schema_toJson {s : Source} (h : s.Fits) : Source.schema (some s.toJson) = .ok s := by
  cases s with
  | var name => simp [schema, toJson, object, member_cons, filled_string h, choice]
  | function name =>
    simp [schema, toJson, object, member_cons, filled_string h, choice, List.lookup_cons]

theorem Input.schema_toJson {i : Input} (h : i.Fits) : Input.schema (some i.toJson) = .ok i := by
  refine alternatives_eq ?_
  cases i with
  | ref r =>
    have hr := Reference.schema_toJson h
    simp [toJson, hr, List.findSome?_cons]
  | function name =>
    simp [toJson, object, member_cons, filled_string h, constant, Reference.schema,
      List.findSome?_cons]

theorem Payload.schema_toJson {p : Payload} (h : p.Fits) :
    Payload.schema (some p.toJson) = .ok p := by
  cases p with
  | lambda name line =>
    have hline : nullable int (some ((line.map Json.ofInt).getD .null)) = .ok line := by
      cases line with
      | none => rfl
      | some n =>
        have hn := int_ofInt (h.2 n rfl)
        refine nullable_eq hn fun he => ?_
        change Json.ofInt n = .null at he
        rw [he] at hn
        cases hn
    simp [schema, toJson, tagged, object, member_cons, filled_string h.1, hline]
  | literal domain text =>
    simp [schema, toJson, tagged, object, member_cons, string, Domain.schema_name, List.lookup_cons]

theorem Record.schema_toJson {r : Record} (h : r.Fits) : Record.schema (some r.toJson) = .ok r := by
  refine alternatives_eq ?_
  cases r with
  | value name output input =>
    have houtput := Reference.schema_toJson h.2.1
    have hinput := list_array fun i hi => Input.schema_toJson (h.2.2 i hi)
    simp [toJson, object, member_cons, filled_string h.1, houtput, hinput, List.findSome?_cons]
  | call function input =>
    have hinput := list_array fun r hr => Reference.schema_toJson (h.2 r hr)
    have houtput : noOutput (some (.object [])) = .ok () := rfl
    simp [toJson, object, member_cons, filled_string h.1, houtput, hinput, List.findSome?_cons]
  | loop name inputs =>
    have hinputs := list_strings h.2
    have houtput : noOutput (some (.object [])) = .ok () := rfl
    simp [toJson, object, member_cons, filled_string h.1, houtput, hinputs, List.findSome?_cons]

theorem Declaration.schema_toJson {d : Declaration} (h : d.Fits) :
    Declaration.schema (some d.toJson) = .ok d := by
  have hname := filled_string h
  simp [schema, toJson, object, member_cons, hname, Domain.schema_name]

theorem RangeBound.schema_toJson {b : RangeBound} (h : b.Fits) :
    RangeBound.schema (some b.toJson) = .ok b := by
  refine alternatives_eq ?_
  cases b with
  | literal n =>
    have hn := int_ofInt h
    simp [toJson, hn, List.findSome?_cons]
  | ref r =>
    have hr := Reference.schema_toJson h
    have hint : (int (some r.toJson)).toOption = none := rfl
    simp [toJson, hr, hint, List.findSome?_cons]

theorem Range.schema_toJson {r : Range} (h : r.Fits) : Range.schema (some r.toJson) = .ok r := by
  have hstart := RangeBound.schema_toJson h.1
  have hstop := RangeBound.schema_toJson h.2
  simp [schema, toJson, object, member_cons, hstart, hstop]

theorem Function.schema_toJson {f : Function} (h : f.Fits) :
    Function.schema (some f.toJson) = .ok f := by
  cases f with
  | assign name target sources payload =>
    obtain ⟨hname, htarget, hsources, hpayload⟩ := h
    have hs := list_array fun s hs => Source.schema_toJson (hsources s hs)
    have hbody : single Payload.schema (some (.array [payload.toJson])) = .ok payload := by
      simp [single, Payload.schema_toJson hpayload]
    simp [schema, toJson, tagged, object, member_cons, filled_string hname, filled_string htarget,
      hs, hbody, List.lookup_cons, Function.name, Function.kind]
  | decision name target sources =>
    obtain ⟨hname, htarget, hsources⟩ := h
    have hs := list_array fun s hs => Source.schema_toJson (hsources s hs)
    simp [schema, toJson, tagged, object, member_cons, filled_string hname, filled_string htarget,
      hs, List.lookup_cons, Function.name, Function.kind]
  | container name input vars body =>
    obtain ⟨hname, hinput, hvars, hbody⟩ := h
    have hi := list_array fun d hd => Declaration.schema_toJson (hinput d hd)
    have hv := list_array fun d hd => Declaration.schema_toJson (hvars d hd)
    have hb := list_array fun r hr => Record.schema_toJson (hbody r hr)
    simp [schema, toJson, tagged, object, member_cons, filled_string hname, hi, hv, hb,
      List.lookup_cons, Function.name, Function.kind]
  | loopPlate name input index range body =>
    obtain ⟨hname, hinput, hindex, hrange, hbody⟩ := h
    have hi := list_strings hinput
    have hr := Range.schema_toJson hrange
    have hb := list_array fun r hr => Record.schema_toJson (hbody r hr)
    simp [schema, toJson, tagged, object, member_cons, filled_string hname, filled_string hindex,
      hi, hr, hb, List.lookup_cons, Function.name, Function.kind]

/-- A document that fits is read back from its data tree. -/
theorem Document.schema_toJson {d : Document} (h : d.Fits) :
    Document.schema (some d.toJson) = .ok d := by
  have hdate : date (some (.string d.dateCreated)) = .ok d.dateCreated := by
    simp [date, string, h.dateCreated]
  have hf := list_array fun f hf => Function.schema_toJson (h.functions f hf)
  have hb := list_array fun r hr => Record.schema_toJson (h.body r hr)
  simp [schema, toJson, object, member_cons, string, filled_string h.name, hdate, hf, hb]

end Graph

end ProgramGraph
