import ProgramGraph.Proofs.Literals.Ordering
import ProgramGraph.Text.Base64

/-! Encodings lose nothing: code units give their characters back, and base 64 its bytes. -/
namespace ProgramGraph.Text

/-- A unit that is no surrogate is a character of its own. -/
theorem ofUnits_cons {n : Nat} (hn : n < 0xD800 ∨ 0xE000 ≤ n) (us : List Nat) :
    ofUnits (n :: us) = Char.ofNat n :: ofUnits us := by
  have hhigh : isHighSurrogate n = false := by
    simp [isHighSurrogate]
    omega
  have hlow : isLowSurrogate n = false := by
    simp [isLowSurrogate]
    omega
  cases us with
  | nil => simp [ofUnits, hhigh, hlow]
  | cons m rest => simp [ofUnits, hhigh, hlow]

/-- A pair of surrogates is one character. -/
theorem ofUnits_pair {n m : Nat} (hn : 0xD800 ≤ n ∧ n < 0xDC00) (hm : 0xDC00 ≤ m ∧ m < 0xE000)
    (us : List Nat) :
    ofUnits (n :: m :: us) =
      Char.ofNat (0x10000 + (n - 0xD800) * 0x400 + (m - 0xDC00)) :: ofUnits us := by
  simp [ofUnits, isHighSurrogate, isLowSurrogate, hn, hm]

theorem ofUnits_unitsOf_append (c : Char) (us : List Nat) :
    ofUnits (unitsOf c ++ us) = c :: ofUnits us := by
  have hc := toNat_bounds c
  unfold unitsOf
  dsimp only
  split
  · rw [List.singleton_append, ofUnits_cons (by omega), Char.ofNat_toNat]
  · have hjoin : 0x10000 + (0xD800 + (c.toNat - 0x10000) / 0x400 - 0xD800) * 0x400 +
        (0xDC00 + (c.toNat - 0x10000) % 0x400 - 0xDC00) = c.toNat := by
      omega
    rw [List.cons_append, List.singleton_append, ofUnits_pair (by omega) (by omega), hjoin,
      Char.ofNat_toNat]

/-- The units of a text denote its characters. -/
theorem ofUnits_units (s : String) : ofUnits (units s) = s.toList := by
  unfold units
  induction s.toList with
  | nil => rfl
  | cons c cs ih => rw [List.flatMap_cons, ofUnits_unitsOf_append, ih]

/-- The bytes of a text are those of its characters, one to four for each. -/
theorem toUTF8_data (s : String) :
    s.toUTF8.data.toList = s.toList.flatMap String.utf8EncodeChar := by
  rw [String.toUTF8, ← String.utf8Encode_toList, List.utf8Encode]
  exact List.toList_data_toByteArray

namespace Base64

/-- The characters of an encoding. -/
def isSymbol (c : Char) : Bool := c.isAlphanum || c = '+' || c = '/' || c = '='

theorem digitValue?_digit {n : Nat} (h : n < 64) : digitValue? (digit n) = some n := by
  have hall : ∀ n < 64, digitValue? (digit n) = some n := by decide
  exact hall n h

theorem isSymbol_digit {n : Nat} (h : n < 64) : isSymbol (digit n) = true := by
  have hall : ∀ n < 64, isSymbol (digit n) = true := by decide
  exact hall n h

/-- No digit is taken for padding. -/
theorem digit_ne_padding {n : Nat} (h : n < 64) : digit n ≠ '=' := fun he => by
  have hvalue := digitValue?_digit h
  rw [he] at hvalue
  exact absurd hvalue nofun

theorem isSymbol_of_mem_encode (bytes : List UInt8) : ∀ c ∈ encode bytes, isSymbol c = true := by
  induction bytes using encode.induct with
  | case1 => exact nofun
  | case2 a =>
    have ha := a.toNat_lt
    simp only [encode, List.forall_mem_cons]
    exact ⟨isSymbol_digit (by omega), isSymbol_digit (by omega), rfl, rfl, nofun⟩
  | case3 a b =>
    have ha := a.toNat_lt
    have hb := b.toNat_lt
    simp only [encode, List.forall_mem_cons]
    exact ⟨isSymbol_digit (by omega), isSymbol_digit (by omega), isSymbol_digit (by omega), rfl,
      nofun⟩
  | case4 a b c rest ih =>
    have ha := a.toNat_lt
    have hb := b.toNat_lt
    have hc := c.toNat_lt
    simp only [encode, List.forall_mem_cons]
    exact ⟨isSymbol_digit (by omega), isSymbol_digit (by omega), isSymbol_digit (by omega),
      isSymbol_digit (by omega), ih⟩

/-- Four digits of a number are read as its three bytes. -/
theorem decode_group {n : Nat} (hn : n < 16777216) (rest : List Char) :
    decode (digit (n / 262144) :: digit (n / 4096 % 64) :: digit (n / 64 % 64) :: digit (n % 64) ::
        rest) =
      (decode rest).map fun bytes =>
        .ofNat (n / 65536) :: .ofNat (n / 256 % 256) :: .ofNat (n % 256) :: bytes := by
  have hlast : n % 64 < 64 := Nat.mod_lt _ (by decide)
  have hjoin : ((n / 262144 * 64 + n / 4096 % 64) * 64 + n / 64 % 64) * 64 + n % 64 = n := by omega
  rw [decode, digitValue?_digit (by omega), digitValue?_digit (by omega),
    digitValue?_digit (by omega), digitValue?_digit hlast]
  · simp only [Option.bind_eq_bind, Option.bind_some, hjoin]
    cases decode rest <;> rfl
  · exact fun _ h _ => digit_ne_padding hlast h
  · exact fun h _ => digit_ne_padding hlast h

theorem decode_encode (bytes : List UInt8) : decode (encode bytes) = some bytes := by
  induction bytes using encode.induct with
  | case1 => rfl
  | case2 a =>
    have ha := a.toNat_lt
    have hbyte : (a.toNat * 16 / 64 * 64 + a.toNat * 16 % 64) / 16 = a.toNat := by omega
    rw [encode, decode, digitValue?_digit (by omega), digitValue?_digit (by omega)]
    simp only [Option.bind_eq_bind, Option.bind_some, hbyte, UInt8.ofNat_toNat]
  | case3 a b =>
    have ha := a.toNat_lt
    have hb := b.toNat_lt
    generalize hn : (a.toNat * 256 + b.toNat) * 4 = n
    have hlast : n % 64 < 64 := Nat.mod_lt _ (by decide)
    have hjoin : (n / 4096 * 64 + n / 64 % 64) * 64 + n % 64 = n := by omega
    have hfirst : n / 1024 = a.toNat := by omega
    have hsecond : n / 4 % 256 = b.toNat := by omega
    rw [encode]
    simp only [hn]
    rw [decode, digitValue?_digit (by omega), digitValue?_digit (by omega), digitValue?_digit hlast]
    · simp only [Option.bind_eq_bind, Option.bind_some, hjoin, hfirst, hsecond, UInt8.ofNat_toNat]
    · exact fun h => digit_ne_padding hlast h
  | case4 a b c rest ih =>
    have ha := a.toNat_lt
    have hb := b.toNat_lt
    have hc := c.toNat_lt
    generalize hn : (a.toNat * 256 + b.toNat) * 256 + c.toNat = n
    have hfirst : n / 65536 = a.toNat := by omega
    have hsecond : n / 256 % 256 = b.toNat := by omega
    have hthird : n % 256 = c.toNat := by omega
    rw [encode]
    simp only [hn]
    rw [decode_group (by omega), ih, Option.map_some, hfirst, hsecond, hthird, UInt8.ofNat_toNat,
      UInt8.ofNat_toNat, UInt8.ofNat_toNat]

/-- The text whose bytes an encoding denotes. -/
def decodeText? (s : String) : Option String :=
  (decode s.toList).bind fun bytes => String.fromUTF8? ⟨bytes.toArray⟩

theorem decodeText?_encodeText (s : String) : decodeText? (encodeText s) = some s := by
  rw [decodeText?, encodeText, String.toList_ofList, decode_encode, Option.bind_some]
  exact dif_pos s.isValidUTF8

end Base64
end ProgramGraph.Text
