import Mathlib.Data.String.Basic
import ProgramGraph.Proofs.Literals.Values

/-! Texts in the order of their code units and in that of their code points. The two part where a
character of two units meets one that is a single unit above the surrogates. -/
namespace ProgramGraph

namespace Text

/-- A character whose only unit is greater than every surrogate. -/
def isAboveSurrogates (c : Char) : Bool := 0xE000 ≤ c.toNat && c.toNat < 0x10000

/-- A character that is a pair of surrogates. -/
def isPair (c : Char) : Bool := 0x10000 ≤ c.toNat

/-- The first units of two characters come in the opposite order of the characters. -/
def crosses (c d : Char) : Bool :=
  isAboveSurrogates c && isPair d || isPair c && isAboveSurrogates d

/-- Whether the characters at the first difference cross. -/
def inverts : List Char → List Char → Bool
  | c :: cs, d :: ds => if c = d then inverts cs ds else crosses c d
  | _, _ => false

theorem crosses_comm (c d : Char) : crosses c d = crosses d c := by
  unfold crosses
  rw [Bool.or_comm, Bool.and_comm, Bool.and_comm (isAboveSurrogates c)]

theorem inverts_comm (cs ds : List Char) : inverts cs ds = inverts ds cs := by
  induction cs generalizing ds with
  | nil => cases ds <;> rfl
  | cons c cs ih =>
    cases ds with
    | nil => rfl
    | cons d ds =>
      unfold inverts
      rw [ih, crosses_comm]
      simp only [eq_comm]

/-- Code points leave out the surrogates. -/
theorem toNat_bounds (c : Char) : c.toNat < 0xD800 ∨ 0xE000 ≤ c.toNat ∧ c.toNat < 0x110000 := by
  have h := c.valid
  unfold UInt32.isValidChar Nat.isValidChar at h
  have hn : c.toNat = c.val.toNat := rfl
  omega

theorem char_lt_iff {c d : Char} : c < d ↔ c.toNat < d.toNat := Iff.rfl

/-- The first unit of a pair is a surrogate, and no unit of a single character is one. -/
theorem ne_highSurrogate (c d : Char) (h : 0x10000 ≤ d.toNat) :
    c.toNat ≠ 0xD800 + (d.toNat - 0x10000) / 0x400 := by
  have hc := toNat_bounds c
  have hd := toNat_bounds d
  omega

/-- The units of two different characters compare as the characters do, unless the characters
cross. -/
theorem unitsOf_append_lt {c d : Char} (h : c ≠ d) (us ws : List Nat) :
    unitsOf c ++ us < unitsOf d ++ ws ↔ if crosses c d then d < c else c < d := by
  have hc := toNat_bounds c
  have hd := toNat_bounds d
  have hne : c.toNat ≠ d.toNat := fun he => h (Char.toNat_inj.mp he)
  simp only [unitsOf, crosses, isAboveSurrogates, isPair, char_lt_iff]
  rcases Nat.lt_or_ge c.toNat 0x10000 with hcp | hcp
  · rcases Nat.lt_or_ge d.toNat 0x10000 with hdp | hdp
    · simp [hcp, hdp, List.cons_lt_cons_iff, hne, Nat.not_le.mpr hcp, Nat.not_le.mpr hdp]
    · simp [hcp, hdp, List.cons_lt_cons_iff, ne_highSurrogate c d hdp, Nat.not_lt.mpr hdp]
      split <;> omega
  · rcases Nat.lt_or_ge d.toNat 0x10000 with hdp | hdp
    · simp [hcp, hdp, List.cons_lt_cons_iff, (ne_highSurrogate d c hcp).symm, Nat.not_lt.mpr hcp]
      split <;> omega
    · simp [hcp, hdp, List.cons_lt_cons_iff, Nat.not_lt.mpr hcp, Nat.not_lt.mpr hdp]
      omega

theorem append_lt_append_iff (p us ws : List Nat) : p ++ us < p ++ ws ↔ us < ws := by
  induction p with
  | nil => rfl
  | cons n p ih => simp [ih]

theorem nil_lt_unitsOf_append (c : Char) (us : List Nat) : [] < unitsOf c ++ us := by
  simp only [unitsOf]
  split <;> simp

/-- Texts compare by their units as they do by their characters, unless the first difference
crosses. -/
theorem flatMap_unitsOf_lt (cs ds : List Char) :
    cs.flatMap unitsOf < ds.flatMap unitsOf ↔ if inverts cs ds then ds < cs else cs < ds := by
  induction cs generalizing ds with
  | nil =>
    cases ds with
    | nil => simp [inverts]
    | cons d ds => simp [inverts, nil_lt_unitsOf_append]
  | cons c cs ih =>
    cases ds with
    | nil => simp [inverts]
    | cons d ds =>
      rw [List.flatMap_cons, List.flatMap_cons, List.cons_lt_cons_iff, List.cons_lt_cons_iff]
      by_cases h : c = d
      · subst h
        simpa [inverts, append_lt_append_iff] using ih ds
      · simp [unitsOf_append_lt h, inverts, h, Ne.symm h]

/-- The first difference, if there is one, is between different characters. -/
theorem ne_of_inverts {cs ds : List Char} (h : inverts cs ds = true) : cs ≠ ds := by
  rintro rfl
  induction cs with
  | nil => cases h
  | cons c cs ih => exact ih (by simpa [inverts] using h)

theorem units_lt_iff {s t : String} :
    units s < units t ↔ if inverts s.toList t.toList then t < s else s < t :=
  flatMap_unitsOf_lt s.toList t.toList

theorem units_inj {s t : String} : units s = units t ↔ s = t := by
  refine ⟨fun he => ?_, congrArg units⟩
  have hlt : ∀ {a b : String}, units a = units b → ¬ a < b := by
    intro a b he hab
    cases hi : inverts a.toList b.toList with
    | false =>
      have h := (units_lt_iff (s := a) (t := b)).mpr (by simpa [hi] using hab)
      rw [he] at h
      exact lt_irrefl _ h
    | true =>
      rw [inverts_comm] at hi
      have h := (units_lt_iff (s := b) (t := a)).mpr (by simpa [hi] using hab)
      rw [he] at h
      exact lt_irrefl _ h
  exact le_antisymm (not_lt.mp (hlt he.symm)) (not_lt.mp (hlt he))

/-- The order of code units is that of code points, turned round where the first difference
crosses. -/
theorem compareUnits_eq (s t : String) :
    compareUnits s t = if inverts s.toList t.toList then (compareOfLessAndEq s t).swap
      else compareOfLessAndEq s t := by
  unfold compareUnits compareOfLessAndEq
  simp only [units_lt_iff, units_inj]
  cases hi : inverts s.toList t.toList with
  | false => simp
  | true =>
    have hne : s ≠ t := fun he => ne_of_inverts hi (congrArg String.toList he)
    rcases lt_or_gt_of_ne hne with h | h
    · simp [h, hne, lt_asymm h]
    · simp [h, hne, lt_asymm h]

/-- No character of the text needs two code units. -/
def isBasic (s : String) : Bool := s.toList.all (·.toNat < 0x10000)

theorem inverts_of_isBasic {cs ds : List Char} (hc : cs.all (·.toNat < 0x10000) = true)
    (hd : ds.all (·.toNat < 0x10000) = true) : inverts cs ds = false := by
  induction cs generalizing ds with
  | nil => rfl
  | cons c cs ih =>
    cases ds with
    | nil => rfl
    | cons d ds =>
      simp only [List.all_cons, Bool.and_eq_true, decide_eq_true_eq] at hc hd
      have hcross : crosses c d = false := by
        simp [crosses, isPair, hc.1, hd.1]
      simp [inverts, hcross, ih hc.2 hd.2]

/-- Code units and code points order texts alike as long as each character is one unit. -/
theorem compareUnits_of_isBasic {s t : String} (hs : isBasic s = true) (ht : isBasic t = true) :
    compareUnits s t = compareOfLessAndEq s t := by
  rw [compareUnits_eq, inverts_of_isBasic hs ht]
  rfl

end Text

/-- Turning an order round is noticed by the operators that ask for one. -/
theorem CompareOp.holds_swap_eq_iff {op : CompareOp} {o : Ordering} (ho : o ≠ .eq) :
    op.holds o.swap = op.holds o ↔ op = .eq ∨ op = .notEq := by
  cases o with
  | eq => exact absurd rfl ho
  | lt => cases op <;> decide
  | gt => cases op <;> decide

/-- Comparisons of texts fold to the truth of the order by code points, but for an order that is
turned round. -/
theorem Literal.foldCompare?_string (op : CompareOp) (s t : String) :
    ∃ b, foldCompare? op ⟨.string, .string s⟩ ⟨.string, .string t⟩ = some ⟨.boolean, .bool b⟩ ∧
      (Value.compare op (.string s) (.string t) = some b ↔
        op = .eq ∨ op = .notEq ∨ Text.inverts s.toList t.toList = false) := by
  refine ⟨op.holds (Text.compareUnits s t), rfl, ?_⟩
  have hvalue : Value.compare op (.string s) (.string t) =
      some (op.holds (compareOfLessAndEq s t)) := rfl
  rw [hvalue, Option.some.injEq, Text.compareUnits_eq]
  cases hi : Text.inverts s.toList t.toList with
  | false => simp
  | true =>
    have hne : s ≠ t := fun he => Text.ne_of_inverts hi (congrArg String.toList he)
    have hordered : compareOfLessAndEq s t ≠ .eq := by
      rw [Ne, compareOfLessAndEq_eq_eq le_refl not_le]
      exact hne
    rw [if_pos rfl, eq_comm, CompareOp.holds_swap_eq_iff hordered]
    simp

/-- The fullwidth A is a single unit above the surrogates, and the emoji is a pair of them. -/
theorem Literal.foldCompare?_fullwidth_emoji :
    foldCompare? .lt ⟨.string, .string "Ａ"⟩ ⟨.string, .string "😀"⟩ =
        some ⟨.boolean, .bool false⟩ ∧
      Value.compare .lt (.string "Ａ") (.string "😀") = some true := by
  decide +kernel

end ProgramGraph
