/-!
# Blank characters

The characters with the Unicode property `White_Space`, and cutting them off the ends of a text.
-/

namespace Plic.Text

/-- The code points with the property `White_Space`, as closed ranges. -/
def blankRanges : List (Nat × Nat) :=
  [(0x9, 0xD), (0x20, 0x20), (0x85, 0x85), (0xA0, 0xA0), (0x1680, 0x1680), (0x2000, 0x200A),
    (0x2028, 0x2029), (0x202F, 0x202F), (0x205F, 0x205F), (0x3000, 0x3000)]

/-- Whether `c` separates words: a blank, a tab, a line break or one of their Unicode relatives. -/
def isBlank (c : Char) : Bool :=
  blankRanges.any fun r => r.1 ≤ c.toNat && c.toNat ≤ r.2

/-- The text without the blanks it begins with. -/
def trimStart (s : List Char) : List Char :=
  s.dropWhile isBlank

/-- The text without the blanks it ends with. -/
def trimEnd (s : List Char) : List Char :=
  (s.reverse.dropWhile isBlank).reverse

/-- The text without the blanks at its ends. -/
def trim (s : List Char) : List Char :=
  trimEnd (trimStart s)

end Plic.Text
