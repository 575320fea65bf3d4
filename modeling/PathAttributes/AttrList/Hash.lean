import PathAttributes.AttrList.Basic
import PathAttributes.Xxh32

namespace PathAttributes

def Value.hashInput : Value → Octets
  | .int n => Octets.ofNat 4 n.toNat
  | .routerId a | .address a => a.octets
  | .raw data | .asPath data | .intSet data => Octets.ofNat 4 data.length ++ data

def Attr.hashInput (a : Attr) : Octets :=
  Numbered.code a.id.ns :: a.id.code :: Numbered.code a.value.kind :: a.value.hashInput

namespace AttrList

/-- The octets by which a list is hashed. Flags play no part. -/
def hashInput (l : AttrList) : Octets := l.attrs.flatMap Attr.hashInput

def hash (l : AttrList) : UInt32 := Xxh32.hash 0 l.hashInput

end AttrList

end PathAttributes
