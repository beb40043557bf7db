/-!
# Letter case

Keywords and identifiers are compared without regard to the case of the letters A to Z. No other
character has a case here.
-/

namespace Plic.Text

/-- The text with the letters A to Z made small. -/
def lower (s : String) : String :=
  String.ofList (s.toList.map Char.toLower)

end Plic.Text
