import ProgramGraph.Shape.Length

/-! Checking data trees against shapes, collecting every violation in order. -/
namespace ProgramGraph

open Shape in
/-- A value, or the issues found instead. -/
inductive Checked (α : Type) where
  | ok (a : α)
  | failed (issues : List Issue)

namespace Checked
variable {α β : Type}

open Shape

/-- Issues of both sides are kept, those of the left one first. -/
instance : Applicative Checked where
  pure := ok
  seq f x := match f, x () with
    | ok f, ok a => ok (f a)
    | ok _, failed is => failed is
    | failed is, ok _ => failed is
    | failed is, failed js => failed (is ++ js)

def issues : Checked α → List Issue
  | ok _ => []
  | failed is => is

def toOption : Checked α → Option α
  | ok a => some a
  | failed _ => none

def violation (v : Violation) : Checked α := failed [⟨[], v⟩]

def under (s : Segment) : Checked α → Checked α
  | ok a => ok a
  | failed is => failed (is.map (·.under s))

/-- Further issues behind those of `c`. -/
def also (c : Checked α) (more : List Issue) : Checked α :=
  match c, more with
  | ok a, [] => ok a
  | c, more => failed (c.issues ++ more)

theorem map_eq_ok {f : α → β} {c : Checked α} {b : β} (h : f <$> c = ok b) :
    ∃ a, c = ok a ∧ f a = b := by
  cases c with
  | ok a => exact ⟨a, rfl, Checked.ok.inj h⟩
  | failed is => cases h

theorem seq_eq_ok {f : Checked (α → β)} {c : Checked α} {b : β} (h : f <*> c = ok b) :
    ∃ g a, f = ok g ∧ c = ok a ∧ g a = b := by
  cases f with
  | ok g =>
    cases c with
    | ok a => exact ⟨g, a, rfl, rfl, Checked.ok.inj h⟩
    | failed is => cases h
  | failed is => cases c <;> cases h

theorem under_eq_ok {s : Segment} {c : Checked α} {a : α} (h : c.under s = ok a) : c = ok a := by
  cases c with
  | ok b => exact h
  | failed is => cases h

end Checked

namespace Shape

/-- What is expected of a part of a tree that may be missing. -/
abbrev Of (α : Type) := Option Json → Checked α

variable {α : Type}

def mistyped (expected : Expected) (j : Option Json) : Checked α :=
  .violation (.type expected (typeName j))

def string : Of String
  | some (.string s) => .ok s
  | j => mistyped .string j

def int : Of Int
  | some (.number x) =>
    match x.toInt? with
    | none => .violation (.type .int "number")
    | some n => if Binary64.isSafe n then .ok n else .violation (.beyondSafe (n < 0))
  | j => mistyped .number j

/-- `null` stands for nothing. -/
def nullable (item : Of α) : Of (Option α)
  | some .null => .ok none
  | j => some <$> item j

/-- What is absent is nothing. -/
def optional (item : Of α) : Of (Option α)
  | none => .ok none
  | j => some <$> item j

/-- At least one character or item. What is measured need not be of the expected type. -/
def nonEmpty (shape : Of α) (message : Option String) : Of α := fun j =>
  match length? j with
  | some (measured, length) =>
    if (amount? length).any (1 ≤ ·) then shape j
    else (shape j).also [⟨[], (message.map Violation.empty).getD (.tooShort measured 1)⟩]
  | none => shape j

/-- A text with at least one character. -/
def filled : Of String := nonEmpty string none

private def items (item : Of α) : Nat → List Json → Checked (List α)
  | _, [] => .ok []
  | i, j :: rest => (· :: ·) <$> (item (some j)).under (.index i) <*> items item (i + 1) rest

def list (item : Of α) : Of (List α)
  | some (.array js) => items item 0 js
  | j => mistyped .array j

/-- A list whose items have the shape. -/
theorem list_of_map_eq {item : Of α} {js : List Json} {l : List α}
    (h : js.map (fun j => item (some j)) = l.map .ok) : list item (some (.array js)) = .ok l := by
  have hitems : ∀ i, items item i js = .ok l := by
    induction js generalizing l with
    | nil =>
      obtain rfl : l = [] := List.map_eq_nil_iff.mp h.symm
      exact fun _ => rfl
    | cons j rest ih =>
      obtain ⟨a, others, rfl, ha, hothers⟩ := List.map_eq_cons_iff.mp h.symm
      intro i
      have hitem : item (some j) = .ok a := ha.symm
      rw [items, hitem, ih hothers.symm]
      rfl
  exact hitems 0

/-- What has the shape of a list is one, and its items have their shape. -/
theorem map_eq_of_list {item : Of α} {j : Option Json} {l : List α} (h : list item j = .ok l) :
    ∃ js, j = some (.array js) ∧ js.map (fun j => item (some j)) = l.map .ok := by
  have hitems : ∀ (js : List Json) (i : Nat) (l : List α), items item i js = .ok l →
      js.map (fun j => item (some j)) = l.map .ok := by
    intro js
    induction js with
    | nil =>
      intro i l hl
      obtain rfl := Checked.ok.inj hl
      rfl
    | cons j rest ih =>
      intro i l hl
      rw [items] at hl
      obtain ⟨g, others, hg, hothers, rfl⟩ := Checked.seq_eq_ok hl
      obtain ⟨a, ha, rfl⟩ := Checked.map_eq_ok hg
      rw [List.map_cons, List.map_cons, Checked.under_eq_ok ha, ih _ _ hothers]
  unfold list at h
  split at h
  · exact ⟨_, rfl, hitems _ _ _ h⟩
  · cases h

/-- The first issue of a list is that of its first item with one. -/
theorem exists_of_list_eq_failed {item : Of α} {js : List Json} {is : List Issue}
    (hitem : ∀ j, item (some j) ≠ .failed []) (h : list item (some (.array js)) = .failed is) :
    ∃ i j issue more rest, js[i]? = some j ∧ item (some j) = .failed (issue :: more) ∧
      is = issue.under (.index i) :: rest := by
  have hitems : ∀ (js : List Json) (start : Nat) (is : List Issue),
      items item start js = .failed is → ∃ i j issue more rest, js[i]? = some j ∧
        item (some j) = .failed (issue :: more) ∧
        is = issue.under (.index (start + i)) :: rest := by
    intro js
    induction js with
    | nil => exact fun _ _ h => nomatch h
    | cons j others ih =>
      intro start is h
      rw [items] at h
      cases hj : item (some j) with
      | failed found =>
        cases found with
        | nil => exact absurd hj (hitem j)
        | cons issue more =>
          rw [hj] at h
          cases hothers : items item (start + 1) others with
          | ok l =>
            rw [hothers] at h
            obtain rfl := Checked.failed.inj h
            exact ⟨0, j, issue, more, _, rfl, hj, rfl⟩
          | failed js =>
            rw [hothers] at h
            obtain rfl := Checked.failed.inj h
            exact ⟨0, j, issue, more, _, rfl, hj, rfl⟩
      | ok a =>
        rw [hj] at h
        cases hothers : items item (start + 1) others with
        | ok l =>
          rw [hothers] at h
          cases h
        | failed js =>
          rw [hothers] at h
          obtain rfl := Checked.failed.inj h
          obtain ⟨i, v, issue, more, rest, hi, hv, rfl⟩ := ih _ _ hothers
          refine ⟨i + 1, v, issue, more, rest, hi, hv, ?_⟩
          rw [Nat.add_assoc, Nat.add_comm 1 i]
  obtain ⟨i, j, issue, more, rest, hi, hj, his⟩ := hitems js 0 is h
  exact ⟨i, j, issue, more, rest, hi, hj, by rw [his, Nat.zero_add]⟩

/-- Items that are read back one by one are read back as a list. -/
theorem list_array {item : Of α} {encode : α → Json} {l : List α}
    (h : ∀ a ∈ l, item (some (encode a)) = .ok a) :
    list item (some (.array (l.map encode))) = .ok l := by
  apply list_of_map_eq
  rw [List.map_map]
  exact List.map_congr_left h

/-- A list with exactly one item; the items of a longer one are not looked at. What is measured
need not be of the expected type. -/
def single (item : Of α) : Of α
  | some (.array [j]) => (item (some j)).under (.index 0)
  | some (.array js) => .violation (.wrongLength .list (!js.isEmpty) 1)
  | j =>
    let c : Checked α := mistyped .array j
    match length? j with
    | some (measured, length) =>
      if isOne length then c
      else c.also [⟨[], .wrongLength measured ((amount? length).any (1 < ·)) 1⟩]
    | none => c

def choice (options : List (String × α)) : Of α
  | some (.string s) =>
    match options.lookup s with
    | some a => .ok a
    | none => .violation (.choice (options.map Prod.fst))
  | _ => .violation (.choice (options.map Prod.fst))

def constant (wanted : String) : Of Unit
  | some (.string s) => if s = wanted then .ok () else .violation (.constant wanted)
  | _ => .violation (.constant wanted)

/-- A member of an object. -/
def member (members : List (String × Json)) (key : String) (shape : Of α) : Checked α :=
  (shape (members.lookup key)).under (.key key)

/-- An object. Other members than the ones looked at are ignored. -/
def record (fields : List (String × Json) → Checked α) : Of α
  | some (.object members) => fields members
  | j => mistyped .object j

/-- An object with no other members than the given ones. -/
def object (keys : List String) (fields : List (String × Json) → Checked α) : Of α
  | some (.object members) =>
    match (members.map Prod.fst).filter (!keys.contains ·) with
    | [] => fields members
    | others => (fields members).also [⟨[], .unrecognized others⟩]
  | j => mistyped .object j

/-- The first alternative that fits; else the only one that fails softly; else no alternative. -/
def alternatives (options : List (Of α)) : Of α := fun j =>
  let results := options.map (· j)
  match results.findSome? Checked.toOption with
  | some a => .ok a
  | none =>
    match results.filter (·.issues.all (·.violation.isSoft)) with
    | [c] => c
    | _ => .violation .alternatives

/-- The alternative that the member `type` of an object names. -/
def tagged (options : List (String × Of α)) : Of α
  | some (.object members) =>
    let chosen := match members.lookup "type" with
      | some (.string s) => options.lookup s
      | _ => none
    match chosen with
    | some shape => shape (some (.object members))
    | none => (Checked.violation (.tag (options.map Prod.fst))).under (.key "type")
  | j => mistyped .object j

end Shape
end ProgramGraph
