/-!
# Ranges of code points

A class of characters is given by closed ranges of code points in ascending order. Of a class with
many ranges only the lengths are kept: how many code points in a row are outside, how many are
inside, and so on by turns.
-/

namespace Plic.Text

/-- Whether a number lies in one of some closed ranges, which are in ascending order. -/
def inRanges (n : Nat) : List (Nat × Nat) → Bool
  | [] => false
  | (low, high) :: rest => low ≤ n && (n ≤ high || inRanges n rest)

/-- Whether a number lies inside, by the lengths of the runs of numbers from 0 on that are outside
and inside by turns. -/
def inRuns : Nat → List Nat → Bool
  | n, outside :: inside :: rest =>
    outside ≤ n && (n < outside + inside || inRuns (n - (outside + inside)) rest)
  | _, _ => false

end Plic.Text
