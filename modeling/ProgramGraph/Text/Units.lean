/-! Texts as sequences of 16-bit code units, and their order by these. Characters are no surrogates,
so sequences in which one of these stands alone are no texts here. -/
namespace ProgramGraph.Text

/-- Code units of a character: itself, or a high and a low surrogate above `U+FFFF`. -/
def unitsOf (c : Char) : List Nat :=
  let n := c.toNat
  if n < 0x10000 then [n]
  else [0xD800 + (n - 0x10000) / 0x400, 0xDC00 + (n - 0x10000) % 0x400]

def units (s : String) : List Nat :=
  s.toList.flatMap unitsOf

def isHighSurrogate (n : Nat) : Bool := 0xD800 ≤ n && n < 0xDC00

def isLowSurrogate (n : Nat) : Bool := 0xDC00 ≤ n && n < 0xE000

/-- The characters of code units. Where a surrogate has no partner there is no text to give back, and
a replacement character stands for it. -/
def ofUnits : List Nat → List Char
  | [] => []
  | [n] => [if isHighSurrogate n || isLowSurrogate n then '\ufffd' else Char.ofNat n]
  | n :: m :: rest =>
    if isHighSurrogate n && isLowSurrogate m then
      Char.ofNat (0x10000 + (n - 0xD800) * 0x400 + (m - 0xDC00)) :: ofUnits rest
    else (if isHighSurrogate n || isLowSurrogate n then '\ufffd' else Char.ofNat n) ::
      ofUnits (m :: rest)

/-- Lexicographic comparison of code units. It differs from the order by code points where a
character above `U+FFFF` meets one from `U+E000` on. -/
def compareUnits (s t : String) : Ordering :=
  compareOfLessAndEq (units s) (units t)

end ProgramGraph.Text
