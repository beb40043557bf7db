import Plic.Text.Emoji

/-!
# Characters that belong together

A reader sees a letter with its accents, a flag or a joined emoji as one character. Which code
points go together is settled by a class for each of them: the property `Grapheme_Cluster_Break`
with the pictographs and with the consonants that form conjuncts.
-/

namespace Plic.Text

/-- How a code point goes together with its neighbours. -/
inductive BreakClass where
  | carriageReturn | lineFeed | control
  /-- A mark on what is before it. -/
  | extend
  /-- The joiner of zero width. -/
  | joiner
  /-- A mark that takes room. -/
  | spacing
  /-- A sign for what is behind it. -/
  | preceding
  | flagLetter
  /-- The parts of Korean syllables, and whole ones without and with a final consonant. -/
  | initial | medial | final | openSyllable | closedSyllable
  | pictograph
  /-- A consonant that a linker ties to the consonant before it. -/
  | consonant
  | other
deriving DecidableEq

/-- The code points that have the class `control`, beside the ends of lines. -/
def controlRanges : List (Nat × Nat) :=
  [(0x0, 0x1F), (0x7F, 0x9F), (0xAD, 0xAD), (0x61C, 0x61C), (0x180E, 0x180E), (0x200B, 0x200B),
    (0x200E, 0x200F), (0x2028, 0x202E), (0x2060, 0x206F), (0xFEFF, 0xFEFF), (0xFFF0, 0xFFFB),
    (0x13430, 0x1343F), (0x1BCA0, 0x1BCA3), (0x1D173, 0x1D17A), (0xE0000, 0xE001F),
    (0xE0080, 0xE00FF), (0xE01F0, 0xE0FFF)]

/-- The code points that have the class `extend`. -/
def extendRuns : List Nat :=
  [768, 112, 275, 7, 263, 45, 1, 1, 1, 2, 1, 2, 1, 1, 72, 11, 48, 21, 16, 1, 101, 7, 2, 6, 2, 2,
    1, 4, 35, 1, 30, 27, 91, 11, 58, 9, 9, 1, 24, 4, 1, 9, 1, 3, 1, 5, 43, 3, 59, 9, 42, 24, 1, 32,
    55, 1, 1, 1, 4, 8, 4, 1, 3, 7, 10, 2, 29, 1, 58, 1, 1, 1, 2, 4, 8, 1, 9, 1, 10, 2, 26, 1, 2, 2,
    57, 1, 4, 2, 4, 2, 2, 3, 3, 1, 30, 2, 3, 1, 11, 2, 57, 1, 4, 5, 1, 2, 4, 1, 20, 2, 22, 6, 1, 1,
    58, 1, 1, 2, 1, 4, 8, 1, 7, 3, 10, 2, 30, 1, 59, 1, 1, 1, 12, 1, 9, 1, 40, 1, 3, 1, 55, 1, 1, 3,
    5, 3, 1, 4, 7, 2, 11, 2, 29, 1, 58, 1, 2, 2, 1, 1, 3, 3, 1, 4, 7, 2, 11, 2, 28, 2, 57, 2, 1, 1,
    2, 4, 8, 1, 9, 1, 10, 2, 29, 1, 72, 1, 4, 1, 2, 3, 1, 1, 8, 1, 81, 1, 2, 7, 12, 8, 98, 1, 2, 9,
    11, 7, 73, 2, 27, 1, 1, 1, 1, 1, 55, 14, 1, 5, 1, 2, 5, 11, 1, 36, 9, 1, 102, 4, 1, 6, 1, 2, 2,
    2, 25, 2, 4, 3, 16, 4, 13, 1, 2, 2, 6, 1, 15, 1, 703, 3, 946, 4, 28, 3, 29, 2, 30, 2, 64, 2, 1,
    7, 8, 1, 2, 11, 9, 1, 45, 3, 1, 1, 117, 2, 34, 1, 118, 3, 4, 2, 9, 1, 6, 3, 219, 2, 2, 1, 58, 1,
    1, 7, 1, 1, 1, 1, 2, 8, 6, 10, 2, 1, 48, 46, 2, 12, 20, 4, 48, 10, 4, 3, 38, 9, 12, 2, 32, 4, 2,
    6, 56, 1, 1, 2, 3, 1, 1, 5, 56, 8, 2, 2, 152, 3, 1, 13, 1, 7, 4, 1, 6, 1, 3, 2, 198, 64, 524, 1,
    195, 33, 3070, 3, 141, 1, 96, 32, 554, 6, 105, 2, 30164, 4, 1, 10, 32, 2, 80, 2, 272, 1, 3, 1,
    4, 1, 25, 2, 5, 1, 151, 2, 26, 18, 13, 1, 38, 8, 25, 11, 1, 1, 44, 3, 48, 1, 2, 4, 2, 2, 2, 1,
    36, 1, 67, 6, 2, 2, 2, 2, 12, 1, 8, 1, 47, 1, 51, 1, 1, 3, 2, 2, 5, 2, 1, 1, 42, 2, 8, 1, 238,
    1, 2, 1, 4, 1, 20272, 1, 737, 16, 16, 16, 366, 2, 605, 1, 226, 1, 149, 5, 1670, 3, 1, 2, 5, 4,
    40, 3, 4, 1, 165, 2, 573, 4, 65, 5, 317, 2, 77, 6, 70, 11, 49, 4, 123, 1, 54, 15, 41, 1, 2, 2,
    10, 3, 49, 4, 2, 2, 7, 1, 61, 3, 36, 5, 1, 8, 62, 1, 12, 2, 52, 9, 1, 1, 8, 4, 2, 1, 95, 3, 2,
    4, 6, 1, 2, 1, 157, 1, 3, 8, 21, 2, 57, 2, 1, 1, 1, 1, 12, 1, 9, 1, 14, 7, 3, 5, 67, 1, 2, 6, 1,
    1, 2, 1, 1, 3, 4, 3, 1, 1, 14, 2, 85, 8, 2, 3, 1, 1, 23, 1, 81, 1, 2, 6, 1, 1, 2, 1, 1, 2, 1, 2,
    235, 1, 2, 4, 6, 2, 1, 2, 27, 2, 85, 8, 2, 1, 1, 2, 106, 1, 1, 1, 2, 8, 101, 1, 1, 1, 2, 4, 1,
    5, 259, 9, 1, 2, 245, 1, 10, 4, 4, 1, 144, 4, 2, 2, 4, 1, 32, 10, 40, 6, 2, 4, 8, 1, 9, 6, 2, 3,
    46, 13, 1, 2, 198, 1, 1, 3, 1, 1, 201, 7, 1, 6, 1, 1, 82, 22, 2, 7, 1, 2, 1, 2, 122, 6, 3, 1, 1,
    2, 1, 7, 1, 1, 72, 2, 3, 1, 1, 1, 347, 2, 11, 2, 52, 5, 5, 3, 23, 1, 5349, 1, 6, 15, 11464, 12,
    3, 3, 2496, 5, 59, 7, 1048, 1, 63, 4, 81, 1, 11, 2, 19627, 2, 4705, 46, 2, 23, 542, 5, 3, 6, 8,
    8, 2, 7, 30, 4, 148, 3, 1979, 55, 4, 50, 8, 1, 14, 1, 22, 5, 1, 15, 1360, 7, 1, 17, 2, 7, 1, 2,
    1, 5, 100, 1, 160, 7, 375, 1, 61, 4, 508, 4, 254, 2, 243, 1, 2, 1, 7, 2, 5, 1, 474, 7, 109, 7,
    2736, 5, 789536, 96, 128, 240]

/-- The code points that have the class `spacing`. -/
def spacingRuns : List Nat :=
  [2307, 1, 55, 1, 2, 3, 8, 4, 1, 2, 50, 2, 59, 2, 6, 2, 2, 2, 54, 1, 58, 3, 66, 1, 58, 3, 8, 1,
    1, 2, 53, 2, 60, 1, 6, 2, 2, 2, 114, 1, 1, 2, 3, 3, 1, 3, 52, 3, 61, 4, 61, 2, 58, 1, 2, 1, 1,
    2, 46, 1, 14, 2, 59, 2, 5, 3, 1, 3, 53, 2, 76, 2, 6, 7, 19, 2, 63, 1, 127, 1, 138, 2, 63, 1,
    177, 1, 9, 2, 25, 2, 44, 1, 1841, 1, 7, 8, 1, 2, 346, 4, 2, 3, 4, 2, 1, 6, 224, 2, 58, 1, 1, 1,
    21, 6, 145, 1, 57, 4, 64, 1, 30, 1, 4, 2, 63, 1, 2, 3, 1, 1, 53, 8, 8, 2, 171, 1, 21, 1, 35627,
    2, 2, 1, 88, 2, 50, 16, 142, 1, 48, 1, 48, 2, 4, 2, 2, 2, 111, 2, 2, 2, 24, 1, 157, 1, 2, 2, 5,
    1, 237, 2, 1, 2, 1, 2, 1, 1, 25619, 1, 1, 1, 127, 1, 45, 3, 4, 2, 115, 1, 24, 2, 59, 1, 48, 3,
    9, 1, 14, 1, 93, 3, 3, 2, 172, 3, 31, 2, 59, 1, 1, 4, 2, 2, 2, 2, 21, 2, 85, 2, 15, 1, 1, 2,
    103, 3, 8, 2, 3, 1, 107, 2, 6, 1, 1, 2, 1, 1, 2, 1, 238, 2, 6, 4, 2, 1, 113, 3, 8, 2, 1, 1, 109,
    1, 1, 2, 110, 1, 7, 1, 261, 3, 9, 1, 248, 5, 1, 2, 7, 1, 1, 1, 142, 3, 8, 4, 4, 1, 84, 1, 29, 2,
    62, 1, 201, 1, 3, 1, 1, 1, 199, 1, 14, 1, 106, 1, 7, 1, 2, 1, 213, 5, 4, 2, 1, 1, 350, 2, 12, 1,
    48, 2, 8, 2, 16874, 3, 3620, 55]

/-- The code points that have the class `preceding`. -/
def precedingRanges : List (Nat × Nat) :=
  [(0x600, 0x605), (0x6DD, 0x6DD), (0x70F, 0x70F), (0x890, 0x891), (0x8E2, 0x8E2), (0xD4E, 0xD4E),
    (0x110BD, 0x110BD), (0x110CD, 0x110CD), (0x111C2, 0x111C3), (0x113D1, 0x113D1),
    (0x1193F, 0x1193F), (0x11941, 0x11941), (0x11A84, 0x11A89), (0x11D46, 0x11D46),
    (0x11F02, 0x11F02)]

/-- The code points that have the class `consonant`. -/
def consonantRuns : List Nat :=
  [2325, 37, 30, 8, 24, 8, 21, 20, 1, 7, 1, 1, 3, 4, 34, 2, 1, 1, 16, 2, 163, 20, 1, 7, 1, 2, 1,
    5, 63, 1, 27, 20, 1, 7, 1, 2, 1, 5, 34, 2, 1, 1, 17, 1, 163, 20, 1, 16, 30, 3, 186, 38, 709, 43,
    20, 1, 16, 6, 4, 4, 3, 1, 3, 2, 7, 3, 4, 13, 12, 1, 1777, 52, 620, 53, 182, 2, 6, 33, 17, 8, 54,
    30, 13, 2, 11, 3, 36299, 3, 3, 36, 45, 5, 2, 9, 10, 5, 97, 16, 1, 3, 6, 1, 3, 2, 96, 11, 213,
    27, 24101, 1, 15, 4, 1, 3, 1, 29, 1741, 36, 29, 1, 2, 1, 568, 10, 1, 1, 2, 1, 1, 38, 1354, 7, 2,
    1, 2, 8, 1, 2, 1, 24, 208, 1, 10, 40, 29, 1, 11, 40, 1152, 13, 1, 34]

/-- The code points that tie consonants together, all of the class `extend`. -/
def linkerRanges : List (Nat × Nat) :=
  [(0x94D, 0x94D), (0x9CD, 0x9CD), (0xACD, 0xACD), (0xB4D, 0xB4D), (0xC4D, 0xC4D), (0xD4D, 0xD4D),
    (0x1039, 0x1039), (0x17D2, 0x17D2), (0x1A60, 0x1A60), (0x1B44, 0x1B44), (0x1BAB, 0x1BAB),
    (0xA9C0, 0xA9C0), (0xAAF6, 0xAAF6), (0x10A3F, 0x10A3F), (0x11133, 0x11133), (0x113D0, 0x113D0),
    (0x1193E, 0x1193E), (0x11A47, 0x11A47), (0x11A99, 0x11A99), (0x11F42, 0x11F42)]

/-- The parts of Korean syllables that begin one. -/
def initialRanges : List (Nat × Nat) := [(0x1100, 0x115F), (0xA960, 0xA97C)]

/-- The parts of Korean syllables that stand in the middle, and vowel signs that go with them. -/
def medialRanges : List (Nat × Nat) :=
  [(0x1160, 0x11A7), (0xD7B0, 0xD7C6), (0x16D63, 0x16D63), (0x16D67, 0x16D6A)]

/-- The parts of Korean syllables that end one. -/
def finalRanges : List (Nat × Nat) := [(0x11A8, 0x11FF), (0xD7CB, 0xD7FB)]

/-- The class of a code point that is in none of the other tables. -/
def syllableClass (n : Nat) : BreakClass :=
  if inRanges n initialRanges then .initial
  else if inRanges n medialRanges then .medial
  else if inRanges n finalRanges then .final
  else if 0xAC00 ≤ n && n ≤ 0xD7A3 then
    if (n - 0xAC00) % 28 = 0 then .openSyllable else .closedSyllable
  else .other

def breakClass (c : Char) : BreakClass :=
  let n := c.toNat
  if c = '\r' then .carriageReturn
  else if c = '\n' then .lineFeed
  else if inRanges n controlRanges then .control
  else if n = 0x200D then .joiner
  else if isFlagLetter c then .flagLetter
  else if isPictograph c then .pictograph
  else if n < 0x300 then .other
  else if inRuns n extendRuns then .extend
  else if inRuns n spacingRuns then .spacing
  else if inRanges n precedingRanges then .preceding
  else if inRuns n consonantRuns then .consonant
  else syllableClass n

/-- Whether `c` ties consonants together. -/
def isLinker (c : Char) : Bool := inRanges c.toNat linkerRanges

end Plic.Text
