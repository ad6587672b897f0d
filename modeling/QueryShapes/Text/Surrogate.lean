/-
  Surrogates: code points that are no characters of their own.  A high one and a
  low one behind it together stand for a character beyond U+FFFF.
-/

namespace QueryShapes.Text

def isHighSurrogate (n : Nat) : Bool := 0xD800 ≤ n && n ≤ 0xDBFF

def isLowSurrogate (n : Nat) : Bool := 0xDC00 ≤ n && n ≤ 0xDFFF

/-- The code point of a surrogate pair. -/
def pairValue (high low : Nat) : Nat := 0x10000 + (high - 0xD800) * 0x400 + (low - 0xDC00)

/-- The code points of pairs are those of characters. -/
theorem isValidChar_pairValue {high low : Nat} (hh : isHighSurrogate high = true)
    (hl : isLowSurrogate low = true) : (pairValue high low).isValidChar := by
  simp only [isHighSurrogate, isLowSurrogate, Bool.and_eq_true, decide_eq_true_eq] at hh hl
  unfold pairValue
  right
  omega

end QueryShapes.Text
