import PathAttributes.Numeral
import PathAttributes.Octets

namespace PathAttributes

abbrev Blob := Octets

namespace Blob

/-- The longest value that a length of two octets can announce. -/
def limit : Nat := 65535

def ofOctets? (bs : Octets) : Option Blob := if bs.length ≤ limit then some bs else none

theorem ofOctets?_eq_some_iff {bs b : Octets} :
    ofOctets? bs = some b ↔ bs = b ∧ bs.length ≤ limit := by
  grind [ofOctets?]

def text (b : Blob) : String := "Adata(" ++ Numeral.hexText b ++ ")"

end Blob

end PathAttributes
