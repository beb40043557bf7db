import Plic.Text.CodeRange

/-!
# Letters and digits

The characters with the Unicode property `Alphabetic`, and those that are numbers of any kind.
-/

namespace Plic.Text

/-- The letters and numbers from code point 128 on. -/
def alphanumericRuns : List Nat :=
  [170, 1, 7, 2, 1, 1, 3, 2, 1, 3, 1, 23, 1, 31, 1, 458, 4, 12, 14, 5, 7, 1, 1, 1, 86, 1, 29, 18,
    1, 2, 2, 4, 1, 1, 6, 1, 1, 3, 1, 1, 1, 20, 1, 83, 1, 139, 8, 166, 1, 38, 2, 1, 6, 41, 39, 14, 1,
    1, 1, 2, 1, 2, 1, 1, 8, 27, 4, 4, 29, 11, 5, 56, 1, 17, 4, 102, 1, 8, 4, 8, 4, 16, 2, 1, 16, 48,
    13, 101, 14, 43, 9, 2, 4, 1, 5, 24, 2, 19, 19, 25, 7, 11, 5, 24, 1, 7, 7, 1, 8, 42, 10, 12, 3,
    7, 6, 76, 1, 16, 1, 3, 4, 15, 2, 10, 1, 19, 1, 8, 2, 2, 2, 22, 1, 7, 1, 1, 3, 4, 3, 8, 2, 2, 2,
    2, 1, 1, 8, 1, 4, 2, 1, 5, 2, 12, 2, 6, 2, 1, 4, 3, 1, 6, 4, 2, 2, 22, 1, 7, 1, 2, 1, 2, 1, 2,
    4, 5, 4, 2, 2, 2, 4, 1, 7, 4, 1, 1, 7, 16, 11, 3, 1, 9, 1, 3, 1, 22, 1, 7, 1, 2, 1, 5, 3, 9, 1,
    3, 1, 2, 3, 1, 15, 4, 2, 10, 9, 4, 4, 3, 1, 8, 2, 2, 2, 22, 1, 7, 1, 2, 1, 5, 3, 8, 2, 2, 2, 2,
    9, 2, 4, 2, 1, 5, 2, 10, 1, 7, 10, 2, 1, 6, 3, 3, 1, 4, 3, 2, 1, 1, 1, 2, 3, 2, 3, 3, 3, 12, 4,
    5, 3, 3, 1, 3, 3, 1, 6, 1, 14, 13, 13, 13, 1, 3, 1, 23, 1, 16, 3, 8, 1, 3, 1, 3, 8, 2, 1, 3, 1,
    2, 2, 4, 2, 10, 8, 7, 1, 4, 1, 8, 1, 3, 1, 23, 1, 10, 1, 5, 3, 8, 1, 3, 1, 3, 8, 2, 5, 3, 1, 4,
    2, 10, 1, 3, 12, 13, 1, 3, 1, 41, 2, 8, 1, 3, 1, 3, 1, 1, 5, 16, 2, 19, 1, 6, 1, 3, 1, 18, 3,
    24, 1, 9, 1, 1, 2, 7, 8, 6, 1, 1, 1, 8, 6, 10, 2, 2, 13, 58, 5, 7, 6, 1, 2, 10, 39, 2, 1, 1, 1,
    5, 1, 24, 1, 1, 1, 19, 1, 3, 2, 5, 1, 1, 6, 1, 2, 10, 2, 4, 32, 1, 31, 20, 12, 8, 1, 36, 4, 19,
    4, 16, 1, 36, 67, 55, 1, 1, 2, 15, 6, 78, 2, 38, 1, 1, 5, 1, 2, 43, 1, 333, 1, 4, 2, 7, 1, 1, 1,
    4, 2, 41, 1, 4, 2, 33, 1, 4, 2, 7, 1, 1, 1, 4, 2, 15, 1, 57, 1, 4, 2, 67, 14, 20, 3, 16, 16, 86,
    2, 6, 3, 620, 2, 17, 1, 26, 5, 75, 3, 11, 7, 20, 11, 21, 12, 20, 12, 13, 1, 3, 1, 2, 12, 52, 2,
    19, 14, 1, 4, 1, 3, 10, 6, 10, 22, 10, 6, 89, 7, 43, 5, 70, 10, 31, 1, 12, 4, 9, 13, 40, 2, 5,
    11, 44, 4, 26, 6, 11, 37, 28, 4, 63, 2, 20, 11, 10, 6, 10, 13, 1, 23, 2, 11, 3, 49, 52, 1, 15,
    1, 8, 3, 10, 38, 42, 2, 58, 1, 11, 14, 55, 9, 10, 3, 49, 2, 11, 5, 43, 2, 3, 41, 4, 1, 6, 1, 2,
    3, 1, 5, 192, 19, 34, 11, 278, 2, 6, 2, 38, 2, 6, 2, 8, 1, 1, 1, 1, 1, 1, 1, 31, 2, 53, 1, 7, 1,
    1, 3, 3, 1, 7, 3, 4, 2, 6, 4, 13, 5, 3, 1, 7, 115, 2, 2, 6, 5, 11, 6, 13, 101, 1, 4, 1, 2, 10,
    1, 1, 3, 5, 6, 1, 1, 1, 1, 1, 1, 4, 1, 11, 2, 4, 5, 5, 4, 1, 1, 58, 726, 60, 26, 74, 630, 30,
    1132, 229, 6, 4, 3, 2, 9, 1, 2, 38, 1, 1, 5, 1, 2, 56, 7, 1, 16, 23, 9, 7, 1, 7, 1, 7, 1, 7, 1,
    7, 1, 7, 1, 7, 1, 7, 1, 32, 47, 1, 469, 3, 25, 9, 7, 5, 2, 5, 4, 86, 6, 3, 1, 90, 1, 4, 5, 43,
    1, 94, 3, 4, 10, 32, 48, 16, 32, 10, 30, 8, 1, 15, 32, 10, 39, 15, 320, 6592, 64, 22157, 67, 46,
    2, 269, 3, 28, 20, 47, 5, 8, 3, 113, 39, 9, 2, 103, 2, 82, 20, 21, 1, 33, 8, 6, 10, 52, 12, 68,
    1, 1, 10, 10, 24, 6, 3, 1, 1, 46, 5, 35, 13, 29, 3, 51, 1, 12, 15, 11, 6, 31, 1, 55, 9, 14, 2,
    10, 6, 23, 3, 69, 1, 1, 1, 1, 24, 3, 2, 16, 2, 4, 11, 6, 2, 6, 2, 6, 9, 7, 1, 7, 1, 43, 1, 14,
    6, 123, 5, 10, 6, 11172, 12, 23, 4, 49, 8452, 366, 2, 106, 38, 7, 12, 5, 5, 12, 1, 13, 1, 5, 1,
    1, 1, 2, 1, 2, 1, 108, 33, 363, 18, 64, 2, 54, 40, 12, 116, 5, 1, 135, 19, 10, 7, 26, 6, 26, 11,
    89, 3, 6, 2, 6, 2, 6, 2, 3, 35, 12, 1, 26, 1, 19, 1, 2, 1, 15, 2, 14, 34, 123, 12, 45, 12, 57,
    17, 2, 244, 29, 3, 49, 16, 27, 4, 36, 9, 30, 5, 43, 5, 30, 2, 36, 4, 8, 1, 5, 42, 158, 2, 10, 6,
    36, 4, 36, 4, 40, 8, 52, 12, 11, 1, 15, 1, 7, 1, 2, 1, 11, 1, 15, 1, 7, 1, 2, 3, 52, 12, 311, 9,
    22, 10, 8, 24, 6, 1, 42, 1, 9, 69, 6, 2, 1, 1, 44, 1, 2, 3, 1, 2, 23, 2, 31, 2, 38, 8, 9, 48,
    19, 1, 2, 5, 33, 4, 26, 6, 26, 38, 56, 4, 20, 2, 50, 1, 2, 5, 8, 1, 3, 1, 29, 10, 9, 23, 31, 1,
    32, 32, 8, 1, 28, 6, 5, 16, 54, 10, 22, 2, 27, 5, 26, 23, 7, 80, 73, 55, 51, 13, 51, 7, 46, 8,
    10, 6, 38, 3, 1, 5, 23, 218, 31, 1, 42, 1, 2, 3, 2, 16, 6, 50, 3, 3, 40, 8, 22, 11, 4, 27, 18,
    46, 28, 20, 23, 9, 70, 12, 30, 1, 5, 10, 57, 9, 1, 13, 25, 7, 10, 6, 51, 3, 10, 4, 4, 8, 35, 3,
    1, 9, 64, 1, 4, 9, 13, 1, 1, 4, 20, 11, 18, 1, 34, 2, 1, 6, 4, 62, 7, 1, 1, 1, 4, 1, 15, 1, 10,
    7, 57, 7, 10, 6, 4, 1, 8, 2, 2, 2, 22, 1, 7, 1, 2, 1, 5, 3, 8, 2, 2, 2, 2, 3, 1, 6, 1, 5, 7, 28,
    10, 1, 1, 2, 1, 1, 38, 1, 10, 1, 1, 2, 1, 1, 4, 1, 2, 3, 1, 1, 1, 44, 66, 1, 3, 1, 4, 5, 10, 5,
    3, 30, 66, 2, 2, 1, 1, 8, 10, 166, 54, 2, 7, 25, 6, 34, 63, 1, 1, 3, 1, 11, 10, 38, 54, 2, 1, 7,
    10, 6, 20, 28, 27, 2, 14, 5, 12, 4, 7, 185, 57, 103, 83, 12, 8, 2, 1, 2, 8, 1, 2, 1, 30, 1, 2,
    2, 2, 2, 4, 13, 10, 70, 8, 2, 46, 2, 6, 1, 1, 1, 2, 27, 51, 2, 10, 17, 72, 5, 1, 18, 73, 103, 8,
    88, 33, 15, 10, 6, 9, 1, 45, 1, 7, 1, 1, 15, 29, 5, 30, 2, 22, 1, 14, 73, 7, 1, 2, 1, 44, 3, 1,
    1, 2, 1, 3, 1, 1, 2, 2, 8, 10, 6, 6, 1, 2, 1, 37, 1, 2, 1, 4, 1, 1, 7, 10, 6, 44, 4, 10, 246,
    23, 9, 17, 1, 41, 3, 3, 15, 10, 86, 1, 15, 21, 43, 922, 102, 111, 17, 196, 2636, 97, 15, 1072,
    17, 6, 25, 3995, 5, 583, 6841, 47, 1, 10, 1734, 569, 7, 31, 1, 10, 6, 79, 1, 10, 6, 30, 18, 48,
    16, 4, 12, 10, 1, 7, 1, 21, 5, 19, 432, 45, 3, 10, 198, 87, 9, 25, 2, 25, 44, 75, 4, 57, 7, 17,
    64, 2, 1, 1, 12, 7, 9, 7382, 41, 32, 97, 115, 8701, 4, 1, 7, 1, 2, 1, 291, 15, 1, 29, 3, 2, 1,
    14, 4, 8, 396, 2308, 107, 5, 13, 3, 9, 7, 10, 4, 1, 4177, 10, 1478, 20, 12, 20, 108, 25, 135,
    85, 1, 71, 1, 2, 2, 1, 2, 2, 2, 4, 1, 12, 1, 1, 1, 7, 1, 65, 1, 4, 2, 8, 1, 7, 1, 28, 1, 4, 1,
    5, 1, 1, 3, 7, 1, 340, 2, 25, 1, 25, 1, 31, 1, 25, 1, 31, 1, 25, 1, 31, 1, 25, 1, 31, 1, 25, 1,
    8, 2, 50, 1792, 31, 6, 6, 213, 7, 1, 17, 2, 7, 1, 2, 1, 5, 5, 62, 33, 1, 112, 45, 10, 7, 2, 10,
    4, 1, 321, 30, 18, 44, 4, 10, 470, 28, 4, 10, 214, 30, 2, 11, 197, 31, 1, 22, 8, 2, 224, 7, 1,
    4, 1, 2, 1, 15, 1, 197, 2, 9, 48, 68, 3, 1, 3, 1, 4, 10, 791, 59, 1, 3, 1, 4, 76, 45, 1, 15,
    194, 4, 1, 27, 1, 2, 1, 1, 2, 1, 1, 10, 1, 4, 1, 1, 1, 1, 6, 1, 4, 1, 1, 1, 1, 1, 1, 3, 1, 2, 1,
    1, 2, 1, 1, 1, 1, 1, 1, 1, 1, 1, 1, 2, 1, 1, 2, 4, 1, 7, 1, 4, 1, 4, 1, 1, 1, 10, 1, 17, 5, 3,
    1, 5, 1, 17, 580, 13, 35, 26, 6, 26, 6, 26, 2662, 10, 1030, 42720, 32, 4382, 2, 5774, 2, 7473,
    15, 622, 2466, 542, 1506, 4939, 5, 8490]

/-- Whether `c` is a letter or a number of any script. -/
def isAlphanumeric (c : Char) : Bool :=
  if c.toNat < 128 then c.isAlphanum
  else inRuns c.toNat alphanumericRuns

end Plic.Text
