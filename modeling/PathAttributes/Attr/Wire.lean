import PathAttributes.Attr.Descriptor

namespace PathAttributes.Attr

/-- The octets of the value: an integer takes one octet where the attribute has that length, and
else four. -/
def body (a : Attr) : Octets :=
  match a.value with
  | .int n => Octets.ofNat (if a.descriptor?.bind (·.length) = some 1 then 1 else 4) n.toNat
  | .routerId addr | .address addr => addr.octets
  | .raw data | .asPath data | .intSet data => data

/-- The flags with which the attribute is sent; a value of more than 255 octets needs the longer
length. -/
def wireFlags (a : Attr) : Flags :=
  if 255 < a.body.length then a.flags.union .extendedBit else a.flags

def octets (a : Attr) : Octets :=
  a.wireFlags.bits :: a.id.code ::
    (Octets.ofNat (if a.wireFlags.contains .extendedBit then 2 else 1) a.body.length ++ a.body)

end PathAttributes.Attr
