import Plic.Text.BreakClass

/-!
# Perceived characters

A text is cut into clusters: each is what a reader takes for one character. Whether two neighbours
stay together depends on their classes and on a little of what is before them, which a context
keeps. The clusters, put together, are the text again.
-/

namespace Plic.Text

/-- What counts of the text before a character. -/
structure Context where
  last : BreakClass
  /-- Whether marks, and perhaps a joiner, are all that stands behind a pictograph. -/
  pictured : Bool
  /-- Whether marks are all that stands behind a consonant. -/
  conjoined : Bool
  /-- Whether one of these marks is a linker. -/
  linked : Bool
  /-- Whether an odd number of letters of flags comes last. -/
  halfFlag : Bool

namespace Context

/-- The context behind the first character of a text. -/
def start (c : Char) : Context where
  last := breakClass c
  pictured := breakClass c = .pictograph
  conjoined := breakClass c = .consonant
  linked := false
  halfFlag := breakClass c = .flagLetter

def next (s : Context) (c : Char) : Context :=
  let k := breakClass c
  let marks := k = .extend || k = .joiner
  let kept := s.conjoined && marks && c.toNat ≠ 0x200C
  { last := k
    pictured := k = .pictograph || (s.pictured && marks && s.last ≠ .joiner)
    conjoined := k = .consonant || kept
    linked := kept && (s.linked || isLinker c)
    halfFlag := k = .flagLetter && !s.halfFlag }

/-- Whether the last character ends its line or is a control, and stands alone. -/
def standsAlone : BreakClass → Bool
  | .carriageReturn => true
  | .lineFeed => true
  | .control => true
  | _ => false

/-- Whether parts of a Korean syllable go together. -/
def inSyllable : BreakClass → BreakClass → Bool
  | .initial, k => k ∈ [.initial, .medial, .openSyllable, .closedSyllable]
  | .openSyllable, k => k ∈ [.medial, .final]
  | .medial, k => k ∈ [.medial, .final]
  | .closedSyllable, k => k = .final
  | .final, k => k = .final
  | _, _ => false

/-- Whether a character belongs to the cluster that is open. -/
def joins (s : Context) (c : Char) : Bool :=
  let k := breakClass c
  if s.last = .carriageReturn && k = .lineFeed then true
  else if standsAlone s.last || standsAlone k then false
  else inSyllable s.last k || k ∈ [.extend, .joiner, .spacing] || s.last = .preceding
    || (k = .consonant && s.linked)
    || (k = .pictograph && s.last = .joiner && s.pictured)
    || (k = .flagLetter && s.halfFlag)

end Context

/-- The clusters of a text behind those that are `done`, the last first, and behind the part of one
that is `current`, also backwards. -/
def clustersFrom (s : Context) (current : List Char) (done : List (List Char)) :
    List Char → List (List Char)
  | [] => (current.reverse :: done).reverse
  | c :: cs =>
    if s.joins c then clustersFrom (s.next c) (c :: current) done cs
    else clustersFrom (s.next c) [c] (current.reverse :: done) cs

def clusters : List Char → List (List Char)
  | [] => []
  | c :: cs => clustersFrom (.start c) [c] [] cs

end Plic.Text
