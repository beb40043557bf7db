/-!
# Texts as bytes

UTF-8, read from left to right. Bytes that are no character are cut into pieces: each piece is the
longest beginning of a character that stands there, or one byte that cannot begin any.
-/

namespace Plic.Text

/-- The bytes of a text. -/
def encode (s : String) : List UInt8 := s.toUTF8.toList

/-- What a leading byte announces: how many bytes follow, the least and the greatest value of the
first of them, and the bits that the leading byte holds itself. -/
def announced (b : UInt8) : Option (Nat × Nat × Nat × Nat) :=
  let n := b.toNat
  if 0xC2 ≤ n ∧ n ≤ 0xDF then some (1, 0x80, 0xBF, n - 0xC0)
  else if n = 0xE0 then some (2, 0xA0, 0xBF, 0)
  else if n = 0xED then some (2, 0x80, 0x9F, 0xD)
  else if 0xE1 ≤ n ∧ n ≤ 0xEF then some (2, 0x80, 0xBF, n - 0xE0)
  else if n = 0xF0 then some (3, 0x90, 0xBF, 0)
  else if 0xF1 ≤ n ∧ n ≤ 0xF3 then some (3, 0x80, 0xBF, n - 0xF0)
  else if n = 0xF4 then some (3, 0x80, 0x8F, 4)
  else none

/-- Reads `count` further bytes, the first of them between `low` and `high`, onto the bits `value`:
the character, or nothing, and the number of bytes that fit. -/
def continuation : (count low high value : Nat) → List UInt8 → Option Char × Nat
  | 0, _, _, value, _ => (some (Char.ofNat value), 0)
  | _ + 1, _, _, _, [] => (none, 0)
  | count + 1, low, high, value, b :: bs =>
    if low ≤ b.toNat ∧ b.toNat ≤ high then
      let (c, n) := continuation count 0x80 0xBF (64 * value + (b.toNat - 0x80)) bs
      (c, n + 1)
    else (none, 0)

/-- The character or piece that begins with the byte `b`, and the number of bytes behind `b` that
belong to it. -/
def firstCode (b : UInt8) (bs : List UInt8) : Option Char × Nat :=
  if b.toNat < 0x80 then (some (Char.ofNat b.toNat), 0)
  else
    match announced b with
    | some (count, low, high, value) => continuation count low high value bs
    | none => (none, 0)

/-- The characters of bytes after `skip` that an earlier one covers, with nothing for each piece
that is no character. -/
def codesAfter : Nat → List UInt8 → List (Option Char)
  | _, [] => []
  | skip + 1, _ :: bs => codesAfter skip bs
  | 0, b :: bs =>
    let (c, n) := firstCode b bs
    c :: codesAfter n bs

def decode? (bytes : List UInt8) : Option String :=
  ((codesAfter 0 bytes).mapM id).map String.ofList

/-- The text of some bytes, with a replacement character for each piece that is no character. -/
def decodeLossy (bytes : List UInt8) : String :=
  String.ofList ((codesAfter 0 bytes).map fun c => c.getD '�')

end Plic.Text
