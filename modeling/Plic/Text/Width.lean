import Plic.Text.BreakClass

/-!
# Widths

How many columns a text takes on a screen with columns of one width. Most characters take one; those
of East Asian scripts and pictures take two, and marks take none. Where characters are shown as one
sign, its width is not the sum of theirs, so a text is measured from its end, and for each character
it is known what comes behind it.
-/

namespace Plic.Text

/-- The code points with the property `East_Asian_Width` of a wide or full width form. -/
def wideRuns : List Nat :=
  [4352, 96, 4538, 2, 13, 2, 190, 4, 3, 1, 2, 1, 521, 2, 21, 2, 50, 12, 43, 1, 19, 1, 13, 1, 8, 2,
    17, 2, 5, 2, 8, 1, 5, 1, 21, 1, 7, 2, 1, 1, 4, 1, 2, 1, 7, 1, 4, 2, 28, 1, 35, 1, 1, 1, 4, 3, 1,
    1, 61, 3, 24, 1, 14, 1, 859, 2, 51, 1, 4, 1, 810, 26, 1, 89, 12, 214, 26, 79, 2, 86, 2, 103, 5,
    43, 1, 94, 1, 84, 11, 48, 1, 40, 8, 7024, 64, 22157, 3, 55, 1177, 29, 643, 11172, 8540, 512,
    784, 10, 22, 35, 1, 19, 1, 4, 149, 96, 127, 7, 28665, 5, 11, 2, 14, 6136, 8, 1238, 42, 9, 8935,
    4, 1, 7, 1, 2, 1, 291, 15, 1, 29, 3, 2, 1, 14, 4, 8, 396, 15624, 1, 202, 1, 190, 1, 2, 10, 101,
    3, 13, 44, 4, 9, 7, 2, 14, 6, 154, 33, 12, 9, 1, 70, 1, 22, 12, 43, 4, 5, 12, 17, 3, 1, 3, 71,
    1, 1, 1, 187, 2, 63, 13, 4, 1, 24, 18, 1, 26, 2, 13, 1, 86, 85, 48, 70, 6, 1, 3, 3, 2, 3, 4, 4,
    11, 2, 7, 9, 227, 12, 4, 1, 283, 47, 1, 10, 1, 185, 112, 13, 3, 9, 7, 46, 1, 7, 8, 14, 4, 9, 7,
    9, 1287, 65534, 2, 65534]

/-- Where taking no column is not the same as extending the character before: what is ignored where
it cannot be shown, the parts of Korean syllables behind the first and signs that join the character
behind them take none, and some signs that extend take one. -/
def unlikeExtendRuns : List Nat :=
  [173, 1, 1367, 1, 22, 1, 242, 1, 384, 2, 5, 1, 74, 1, 1131, 1, 1041, 160, 1301, 1, 30, 1, 217,
    1, 704, 15, 2, 12, 88, 1, 101, 1, 71, 2, 1047, 1, 1, 3, 26, 5, 49, 16, 3343, 1, 996, 1, 30613,
    1, 88, 1, 108, 1, 11759, 23, 4, 49, 9987, 1, 160, 1, 79, 9, 3440, 5, 396, 3, 707, 1, 1, 2, 113,
    1, 279, 1, 106, 1, 2, 6, 1, 1, 2, 1, 1, 3, 4, 3, 1, 1, 14, 2, 723, 1, 103, 1, 542, 1, 1, 1, 1,
    1, 248, 1, 73, 6, 214, 1, 1, 3, 1, 1, 479, 1, 443, 1, 62, 1, 24, 1, 16835, 12, 3, 3, 3776, 2,
    19630, 4, 5314, 1, 6, 1, 5, 8, 5235, 2, 243, 1, 2, 1, 7, 2, 5, 1, 3333, 5, 789504, 32, 96, 128,
    240, 3600]

/-- The letters of Khmer that have a form below the line. -/
def subscriptRanges : List (Nat × Nat) :=
  [(0x1780, 0x1782), (0x1784, 0x1787), (0x1789, 0x178C), (0x178E, 0x1793), (0x1795, 0x1798),
    (0x179B, 0x179D), (0x17A0, 0x17A0), (0x17A2, 0x17A2), (0x17A7, 0x17A7), (0x17AB, 0x17AC),
    (0x17AF, 0x17AF)]

/-- The columns that a character takes by itself. -/
def charWidth (c : Char) : Nat :=
  let n := c.toNat
  if n ≤ 0xA0 then 1
  else if n = 0x17D8 then 3
  else if n = 0x17A4 then 2
  else if inRuns n extendRuns != inRuns n unlikeExtendRuns then 0
  else if inRuns n wideRuns then 2
  else 1

/-- What behind a character changes its width. -/
inductive Ahead where
  | nothing
  | lineFeed
  | pictureStyle
  | textStyle
  | skinTone
  | flagLetter | flagLetters
  | picture
  /-- A picture behind a joiner, and one behind a joiner and the selector of a picture. -/
  | joinedPicture | joinedPictureStyle
  /-- A letter of Khmer that has a form below the line. -/
  | subscript
deriving DecidableEq

namespace Ahead

def ofChar (c : Char) : Ahead :=
  if c.toNat ≤ 0xA0 then .nothing
  else if c.toNat = 0xFE0F then .pictureStyle
  else if c.toNat = 0xFE0E then .textStyle
  else if isFlagLetter c then .flagLetter
  else if isSkinTone c then .skinTone
  else if isPicture c then .picture
  else if inRanges c.toNat subscriptRanges then .subscript
  else .nothing

/-- The width of a text with one character more in front, when nothing special is asked of it. -/
def plain (c : Char) (width : Nat) : Nat × Ahead := (charWidth c + width, ofChar c)

/-- The width of a text of the given width with one of the characters in front that take a column
whatever comes behind them. The ends of lines take none. -/
def narrow (a : Ahead) (c : Char) (width : Nat) : Nat × Ahead :=
  if c = '\n' then (width, .lineFeed)
  else if c = '\r' && a = .lineFeed then (width, .nothing)
  else (width + 1, .nothing)

/-- The width of a text of the given width with one of the other characters in front. -/
def join (a : Ahead) (c : Char) (width : Nat) : Nat × Ahead :=
  match a with
  | .subscript => if c.toNat = 0x17D2 then (width - 1, .nothing) else plain c width
  | .skinTone =>
    if isModifiable c then (width, .picture)
    else if c.toNat = 0x200D then (width, .joinedPicture)
    else plain c width
  | .flagLetter => if isFlagLetter c then (width + 1, .flagLetters) else plain c width
  | .flagLetters =>
    if isFlagLetter c then (width + 1, .flagLetters)
    else if c.toNat = 0x200D then (width, .joinedPicture)
    else plain c width
  | .picture => if c.toNat = 0x200D then (width, .joinedPicture) else plain c width
  | .joinedPicture =>
    if c.toNat = 0xFE0F then (width, .joinedPictureStyle)
    else if isSkinTone c then (width, .skinTone)
    else if isPicture c then (width, .picture)
    else plain c width
  | .textStyle => if hasTextStyle c then (width + 1, .nothing) else plain c width
  | _ => plain c width

/-- The width of a text of the given width with one character more in front. -/
def add (a : Ahead) (c : Char) (width : Nat) : Nat × Ahead :=
  let asked := a = .pictureStyle || a = .joinedPictureStyle
  if asked && isTextEmoji c then
    (if a = .joinedPictureStyle then width else width + 2, .picture)
  else
    let a := if a = .joinedPictureStyle then .joinedPicture else a
    if c.toNat ≤ 0xA0 then a.narrow c width else a.join c width

end Ahead

/-- The columns that a text takes, and what its beginning is for a character in front of it. -/
def measure (cs : List Char) : Nat × Ahead :=
  cs.foldr (fun c (width, ahead) => ahead.add c width) (0, .nothing)

/-- The columns that a text takes. -/
def width (cs : List Char) : Nat := (measure cs).1

end Plic.Text
