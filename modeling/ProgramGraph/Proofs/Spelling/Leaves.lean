import Mathlib.Data.List.TakeDrop
import ProgramGraph.Proofs.Literals.Digits
import ProgramGraph.Syntax.Basic

/-! Reading back the leaves of program text: quoted texts and words. -/
namespace ProgramGraph

namespace Text

def hexValue (c : Char) : Nat :=
  if c.isDigit then c.toNat - '0'.toNat else c.toNat - 'a'.toNat + 10

/-- The character that a letter behind a backslash stands for. -/
def unescape (c : Char) : Char :=
  if c = 'n' then '\n'
  else if c = 'r' then '\r'
  else if c = 't' then '\t'
  else if c = 'b' then Char.ofNat 8
  else if c = 'f' then Char.ofNat 12
  else c

/-- The text behind an opening quote, and what follows the closing one. -/
def unquote? : List Char → Option (List Char × List Char)
  | [] => none
  | '"' :: cs => some ([], cs)
  | '\\' :: 'u' :: _ :: _ :: a :: b :: cs =>
    (unquote? cs).map fun p => (Char.ofNat (16 * hexValue a + hexValue b) :: p.1, p.2)
  | '\\' :: c :: cs => (unquote? cs).map fun p => (unescape c :: p.1, p.2)
  | c :: cs => (unquote? cs).map fun p => (c :: p.1, p.2)

theorem hexValue_hexDigit : ∀ n < 16, hexValue (hexDigit n) = n := by decide

theorem unquote?_escape (c : Char) (cs : List Char) :
    unquote? (escape c ++ cs) = (unquote? cs).map fun p => (c :: p.1, p.2) := by
  unfold escape
  split
  · subst c; rfl
  split
  · subst c; rfl
  split
  · subst c; rfl
  split
  · subst c; rfl
  split
  · subst c; rfl
  split
  · have hc : c = Char.ofNat 8 := by rw [← ‹c.toNat = 8›, Char.ofNat_toNat]
    subst hc; rfl
  split
  · have hc : c = Char.ofNat 12 := by rw [← ‹c.toNat = 12›, Char.ofNat_toNat]
    subst hc; rfl
  split
  · simp only [List.cons_append, List.nil_append, unquote?]
    rw [hexValue_hexDigit _ (by omega), hexValue_hexDigit _ (by omega), Nat.div_add_mod,
      Char.ofNat_toNat]
  · simp only [List.cons_append, List.nil_append]
    rw [unquote?]
    all_goals simp_all

/-- A quoted text shows where it ends. -/
theorem unquote?_append (s rest : List Char) :
    unquote? (s.flatMap escape ++ '"' :: rest) = some (s, rest) := by
  induction s with
  | nil => rfl
  | cons c s ih => simp [List.flatMap_cons, unquote?_escape, ih]

end Text

namespace Spelling

/-- Words that are no names. -/
def keywords : List String :=
  ["False", "None", "True", "and", "as", "assert", "async", "await", "break", "class", "continue",
    "def", "del", "elif", "else", "except", "finally", "for", "from", "global", "if", "import",
    "in", "is", "lambda", "nonlocal", "not", "or", "pass", "raise", "return", "try", "while",
    "with", "yield"]

def isWordChar (c : Char) : Bool := c.isAlphanum || c == '_'

/-- A name that a program can use: letters, digits and underscores, not a digit first. -/
def isIdentifier (s : String) : Bool :=
  !keywords.contains s && s.toList.all isWordChar && s.toList.head?.any (!·.isDigit)

/-- No word goes on here. -/
def Breaks (rest : List Char) : Prop := ∀ c ∈ rest.head?, isWordChar c = false

/-- The longest word at the start of a text, and what follows it. -/
def spanWord (cs : List Char) : List Char × List Char := cs.span isWordChar

theorem spanWord_append {w rest : List Char} (hw : w.all isWordChar = true) (hr : Breaks rest) :
    spanWord (w ++ rest) = (w, rest) := by
  have hall : ∀ c ∈ w, isWordChar c = true := List.all_eq_true.mp hw
  have hstop : rest.takeWhile isWordChar = [] ∧ rest.dropWhile isWordChar = rest := by
    cases rest with
    | nil => simp
    | cons c rest =>
      have hc : isWordChar c = false := hr c rfl
      simp [hc]
  unfold spanWord
  rw [List.span_eq_takeWhile_dropWhile, List.takeWhile_append_of_pos hall,
    List.dropWhile_append_of_pos hall, hstop.1, hstop.2, List.append_nil]

/-- What a word denotes: a truth value, an integer or a name. -/
def ofWord? (w : List Char) : Option Expr :=
  if w = "True".toList then some (.constant ⟨.boolean, .bool true⟩ none)
  else if w = "False".toList then some (.constant ⟨.boolean, .bool false⟩ none)
  else if w.head?.any Char.isDigit then
    (Binary64.ofInt? (Nat.ofDigitChars 10 w 0)).map fun x => .constant ⟨.integer, .number x⟩ none
  else some (.name (String.ofList w) .load none)

theorem word_of_isIdentifier {id : String} (h : isIdentifier id = true) :
    id.toList ≠ [] ∧ id.toList ≠ "not".toList ∧ id.toList.all isWordChar = true := by
  simp only [isIdentifier, Bool.and_eq_true] at h
  obtain ⟨⟨hkeyword, hword⟩, hhead⟩ := h
  refine ⟨fun he => ?_, fun he => ?_, hword⟩
  · rw [he] at hhead
    exact absurd hhead (by decide)
  · rw [String.toList_inj.mp he] at hkeyword
    exact absurd hkeyword (by decide)

theorem ofWord?_identifier {id : String} (h : isIdentifier id = true) :
    ofWord? id.toList = some (.name id .load none) := by
  simp only [isIdentifier, Bool.and_eq_true] at h
  obtain ⟨⟨hkeyword, -⟩, hhead⟩ := h
  have hTrue : id.toList ≠ "True".toList := by
    intro he
    rw [String.toList_inj.mp he] at hkeyword
    exact absurd hkeyword (by decide)
  have hFalse : id.toList ≠ "False".toList := by
    intro he
    rw [String.toList_inj.mp he] at hkeyword
    exact absurd hkeyword (by decide)
  have hdigit : id.toList.head?.any Char.isDigit = false := by
    cases hc : id.toList.head? with
    | none => rfl
    | some c => simpa [hc] using hhead
  rw [ofWord?, if_neg hTrue, if_neg hFalse, hdigit, if_neg (by decide), String.ofList_toList]

/-- The expression that the word at the start of a text denotes, and what follows it. -/
def word? (cs : List Char) : Option (Expr × List Char) :=
  match spanWord cs with
  | ([], _) => none
  | (w, rest) => (ofWord? w).map (·, rest)

theorem word?_append {w rest : List Char} {e : Expr} (hne : w ≠ []) (hw : w.all isWordChar = true)
    (hr : Breaks rest) (he : ofWord? w = some e) : word? (w ++ rest) = some (e, rest) := by
  unfold word?
  rw [spanWord_append hw hr]
  cases w with
  | nil => exact absurd rfl hne
  | cons c w => simp [he]

theorem all_isWordChar_digits (n : Nat) : (Nat.toDigits 10 n).all isWordChar = true := by
  refine List.all_eq_true.mpr fun c hc => ?_
  have hdigit : c.isDigit = true := Nat.isDigit_of_mem_toDigits (by decide) (by decide) hc
  simp [isWordChar, Char.isAlphanum, hdigit]

theorem head?_digits (n : Nat) : (Nat.toDigits 10 n).head?.any Char.isDigit = true := by
  have hne : Nat.toDigits 10 n ≠ [] := by simp
  rw [List.head?_eq_some_head hne]
  exact Nat.isDigit_of_mem_toDigits (by decide) (by decide) (List.head_mem hne)

theorem ofWord?_digits {n : Nat} {x : Binary64} (hn : Binary64.isSafe n = true)
    (hx : x.value = (n : Int)) :
    ofWord? (Nat.toDigits 10 n) = some (.constant ⟨.integer, .number x⟩ none) := by
  have hdigit := head?_digits n
  have hTrue : Nat.toDigits 10 n ≠ "True".toList := by
    intro he
    rw [he] at hdigit
    exact absurd hdigit (by decide)
  have hFalse : Nat.toDigits 10 n ≠ "False".toList := by
    intro he
    rw [he] at hdigit
    exact absurd hdigit (by decide)
  obtain ⟨y, hy, hyn⟩ := Binary64.round?_of_isSafe hn
  have hxy : y = x := by
    cases x
    cases y
    simp_all
  subst hxy
  have hround : Binary64.ofInt? n = some y := hy
  rw [ofWord?, if_neg hTrue, if_neg hFalse, hdigit, if_pos rfl, Nat.ofDigitChars_ten_toDigits,
    hround]
  rfl

end Spelling

/-- A constant that is spelled with one word or one quoted text: a safe integer without a sign, a
text or a truth value. -/
def Literal.isSpelled (l : Literal) : Bool :=
  match l.domain, l.value with
  | .integer, .number x => x.toInt?.any fun n => 0 ≤ n && Binary64.isSafe n
  | .string, .string _ | .boolean, .bool _ => true
  | _, _ => false

namespace Spelling

/-- The spelling of a constant is a quoted text, or a word that denotes it. -/
theorem source_cases {l : Literal} (h : l.isSpelled = true) :
    (∃ s, l = ⟨.string, .string s⟩) ∨
      (l.source.toList ≠ [] ∧ l.source.toList ≠ "not".toList ∧
        l.source.toList.all isWordChar = true ∧
        ofWord? l.source.toList = some (.constant l none)) := by
  obtain ⟨domain, value⟩ := l
  unfold Literal.isSpelled at h
  split at h
  · rename_i x hd hv
    dsimp only at hd hv
    subst hd hv
    obtain ⟨n, hn, hspelled⟩ : ∃ n, x.toInt? = some n ∧ (0 ≤ n && Binary64.isSafe n) = true := by
      simpa [Option.any_eq_true] using h
    rw [Bool.and_eq_true, decide_eq_true_eq] at hspelled
    obtain ⟨hpos, hsafe⟩ := hspelled
    obtain ⟨k, rfl⟩ := Int.eq_ofNat_of_zero_le hpos
    have hvalue := Binary64.value_of_toInt? hn
    have htext : (Literal.source ⟨.integer, .number x⟩).toList = Nat.toDigits 10 k := by
      change (Notation.plain.write x).toList = _
      rw [Notation.write_plain_of_isSafe hvalue hsafe]
      change (Nat.repr k).toList = _
      rw [Nat.repr_eq_ofList_toDigits, String.toList_ofList]
    refine .inr ?_
    rw [htext]
    refine ⟨by simp, fun he => ?_, all_isWordChar_digits k, ofWord?_digits hsafe hvalue⟩
    have hdigit := head?_digits k
    rw [he] at hdigit
    exact absurd hdigit (by decide)
  · rename_i s hd hv
    exact .inl ⟨s, by cases hd; cases hv; rfl⟩
  · rename_i b hd hv
    dsimp only at hd hv
    subst hd hv
    refine .inr ?_
    cases b with
    | false => exact ⟨by decide, by decide, by decide, rfl⟩
    | true => exact ⟨by decide, by decide, by decide, rfl⟩
  · cases h

end Spelling
end ProgramGraph
