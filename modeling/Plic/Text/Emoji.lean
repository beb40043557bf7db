import Plic.Text.CodeRange

/-!
# Emoji

The characters that are shown as pictures, by how they come to be: always, or when a selector behind
them asks for it; and those to which a skin tone can be given.
-/

namespace Plic.Text

/-- The code points with the property `Extended_Pictographic`. -/
def pictographRuns : List Nat :=
  [169, 1, 4, 1, 8077, 1, 12, 1, 216, 1, 22, 1, 90, 6, 15, 2, 367, 2, 12, 1, 166, 1, 25, 11, 4, 3,
    199, 1, 231, 2, 10, 1, 9, 1, 58, 4, 1, 5, 9, 1, 2, 1, 2, 2, 2, 1, 4, 1, 2, 1, 1, 2, 2, 1, 3, 1,
    3, 2, 8, 3, 5, 1, 1, 1, 5, 12, 11, 2, 2, 1, 1, 2, 1, 1, 18, 1, 2, 2, 18, 6, 1, 1, 1, 2, 3, 2, 5,
    1, 2, 2, 4, 2, 11, 2, 5, 2, 2, 1, 5, 2, 1, 1, 1, 2, 20, 2, 5, 6, 1, 4, 2, 1, 4, 1, 2, 1, 2, 6,
    1, 1, 2, 1, 1, 1, 1, 1, 6, 1, 3, 1, 6, 1, 10, 2, 15, 1, 2, 1, 4, 1, 1, 1, 4, 3, 1, 1, 11, 2, 48,
    3, 9, 1, 14, 1, 14, 1, 372, 2, 463, 3, 19, 2, 51, 1, 4, 1, 1242, 1, 12, 1, 601, 1, 1, 1, 114026,
    1, 39, 4, 100, 12, 15, 2, 15, 1, 14, 2, 37, 10, 112, 2, 12, 2, 14, 1, 2, 10, 19, 56, 27, 15, 10,
    1, 20, 1, 2, 9, 1, 4, 9, 23, 6, 188, 2, 112, 2, 2, 1, 3, 2, 83, 2, 3, 1, 4, 5, 254, 1, 63, 11,
    6, 1, 24, 7, 2, 2, 8, 12, 1, 2, 4, 2, 1, 4, 2, 13, 2, 2, 1, 8, 2, 9, 1, 5, 3, 12, 3, 8, 3, 2, 1,
    1, 1, 4, 1, 6, 1, 3, 1, 6, 86, 48, 70, 5, 8, 2, 17, 3, 1, 1, 6, 2, 13, 218, 38, 12, 4, 56, 8,
    10, 6, 40, 8, 30, 2, 12, 4, 2, 14, 9, 39, 12, 47, 1, 10, 1, 185, 88, 8, 14, 146, 256, 1022]

/-- The emoji that are shown as pictures by themselves, without the letters of flags and the skin
tones. -/
def pictureRuns : List Nat :=
  [8986, 2, 205, 4, 3, 1, 2, 1, 521, 2, 21, 2, 50, 12, 43, 1, 19, 1, 13, 1, 8, 2, 17, 2, 5, 2, 8,
    1, 5, 1, 21, 1, 7, 2, 1, 1, 4, 1, 2, 1, 7, 1, 4, 2, 28, 1, 35, 1, 1, 1, 4, 3, 1, 1, 61, 3, 24,
    1, 14, 1, 859, 2, 51, 1, 4, 1, 115886, 1, 202, 1, 190, 1, 2, 10, 102, 1, 24, 1, 20, 1, 2, 5, 1,
    3, 21, 2, 174, 33, 12, 9, 1, 70, 1, 22, 12, 43, 4, 5, 12, 17, 3, 1, 3, 3, 5, 63, 1, 1, 1, 187,
    2, 63, 13, 4, 1, 24, 18, 1, 26, 2, 13, 1, 86, 85, 48, 70, 6, 1, 3, 3, 2, 3, 4, 4, 11, 2, 7, 9,
    227, 12, 4, 1, 283, 47, 1, 10, 1, 185, 112, 13, 3, 9, 7, 46, 1, 7, 8, 14, 4, 9, 7, 9]

/-- The emoji that are shown as text unless a selector behind them asks for a picture. -/
def textEmojiRuns : List Nat :=
  [35, 1, 6, 1, 5, 10, 111, 1, 4, 1, 8077, 1, 12, 1, 216, 1, 22, 1, 90, 6, 15, 2, 381, 1, 166, 1,
    29, 3, 1, 2, 5, 3, 199, 1, 231, 2, 10, 1, 9, 1, 58, 2, 3, 5, 9, 1, 2, 1, 6, 1, 4, 1, 2, 1, 1, 2,
    2, 1, 3, 1, 3, 2, 8, 3, 5, 1, 1, 1, 28, 2, 2, 1, 1, 2, 1, 1, 18, 1, 2, 1, 19, 1, 1, 4, 1, 1, 1,
    2, 3, 1, 6, 1, 8, 2, 22, 1, 6, 1, 1, 1, 1, 1, 21, 1, 6, 2, 2, 1, 2, 3, 8, 1, 5, 2, 2, 2, 1, 1,
    2, 1, 1, 1, 1, 1, 6, 1, 3, 1, 17, 2, 15, 1, 2, 1, 27, 2, 60, 1, 402, 2, 463, 3, 1320, 1, 12, 1,
    601, 1, 1, 1, 114390, 2, 12, 2, 130, 1, 52, 1, 233, 1, 2, 9, 9, 1, 70, 1, 24, 2, 1, 3, 2, 2, 43,
    4, 5, 12, 19, 1, 1, 1, 1, 1, 71, 1, 1, 1, 187, 1, 75, 2, 36, 2, 2, 7, 13, 1, 2, 4, 2, 1, 20, 1,
    2, 1, 8, 2, 9, 1, 5, 3, 12, 3, 8, 3, 2, 1, 1, 1, 4, 1, 6, 1, 3, 1, 6, 1, 208, 1, 1, 3, 16, 6, 3,
    1, 6, 1, 2, 1]

/-- The emoji to which a skin tone can be given. -/
def modifiableRuns : List Nat :=
  [9757, 1, 219, 1, 16, 4, 117879, 1, 60, 3, 2, 1, 2, 3, 117, 2, 2, 11, 21, 19, 3, 1, 4, 3, 1, 3,
    7, 1, 1, 1, 24, 1, 201, 2, 4, 1, 21, 1, 4, 2, 174, 3, 3, 5, 83, 1, 16, 3, 9, 1, 11, 1, 575, 1,
    2, 1, 8, 8, 6, 1, 9, 10, 2, 3, 56, 1, 61, 2, 1, 2, 1, 1, 17, 3, 1, 13, 229, 3, 42, 9]

/-- The pictures outside the basic plane that a selector can turn into text. -/
def textStyleRuns : List Nat :=
  [126980, 1, 776, 3, 5, 1, 6, 1, 91, 1, 26, 1, 19, 1, 4, 3, 19, 1, 1, 1, 1, 1, 3, 1, 21, 1, 12,
    1, 26, 1, 12, 1, 9, 1, 6, 1, 27, 1, 3, 4, 3, 2, 4, 1, 22, 1, 18, 1, 37, 1, 12, 1, 2, 1, 7, 1, 3,
    1, 11, 1, 14, 1, 4, 1, 4, 3, 3, 4, 9, 1, 1, 3, 12, 1, 4, 1, 4, 2, 60, 24, 168, 1, 118, 1, 5, 1,
    3, 1, 2, 1, 3, 1, 20, 1, 4, 1, 6, 2, 1, 1]

/-- Whether `c` can be joined to another pictograph. -/
def isPictograph (c : Char) : Bool := inRuns c.toNat pictographRuns

def isPicture (c : Char) : Bool := inRuns c.toNat pictureRuns

/-- Whether `c` becomes a picture by a selector behind it. -/
def isTextEmoji (c : Char) : Bool := inRuns c.toNat textEmojiRuns

/-- Whether `c` can be given a skin tone. -/
def isModifiable (c : Char) : Bool := inRuns c.toNat modifiableRuns

def isSkinTone (c : Char) : Bool := 0x1F3FB ≤ c.toNat && c.toNat ≤ 0x1F3FF

def isFlagLetter (c : Char) : Bool := 0x1F1E6 ≤ c.toNat && c.toNat ≤ 0x1F1FF

/-- Whether `c` is a picture that a selector behind it turns into text. -/
def hasTextStyle (c : Char) : Bool :=
  isPicture c && (c.toNat < 0x10000 || inRuns c.toNat textStyleRuns)

end Plic.Text
