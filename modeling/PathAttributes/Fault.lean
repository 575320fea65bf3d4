import PathAttributes.CodePoint
import PathAttributes.Octets

namespace PathAttributes

inductive AttrFault
  | discard | invalidOrigin | invalidNextHop | malformedAsPath
deriving DecidableEq

instance : Named AttrFault where
  all := [.discard, .invalidOrigin, .invalidNextHop, .malformedAsPath]
  name
    | .discard => "Discard"
    | .invalidOrigin => "InvalidOrigin"
    | .invalidNextHop => "InvalidNexthop"
    | .malformedAsPath => "MalformedAsPath"
  find_name a := by cases a <;> decide

def AttrFault.message : AttrFault → String
  | .discard => "attribute discarded"
  | .invalidOrigin => "invalid origin value"
  | .invalidNextHop => "invalid nexthop address"
  | .malformedAsPath => "malformed AS path"

/-- Why the attributes of an UPDATE message are refused. Errors about one attribute carry its
octets. -/
inductive UpdateError
  | malformedAttributeList
  | unrecognizedWellKnown (raw : Octets)
  | missingWellKnown (type : AttrType)
  | attributeFlags (raw : Octets)
  | attributeLength (raw : Octets)
  | invalidOrigin (raw : Octets)
  | invalidNextHop (raw : Octets)
  | malformedAsPath
deriving DecidableEq

namespace UpdateError

def subcode : UpdateError → UpdateSubcode
  | malformedAttributeList => .malformedAttributeList
  | unrecognizedWellKnown _ => .unrecognizedWellKnown
  | missingWellKnown _ => .missingWellKnown
  | attributeFlags _ => .attributeFlags
  | attributeLength _ => .attributeLength
  | invalidOrigin _ => .invalidOrigin
  | invalidNextHop _ => .invalidNextHop
  | malformedAsPath => .malformedAsPath

def data : UpdateError → Octets
  | unrecognizedWellKnown raw | attributeFlags raw | attributeLength raw | invalidOrigin raw
  | invalidNextHop raw => raw
  | missingWellKnown type => [Numbered.code type]
  | malformedAttributeList | malformedAsPath => []

def cause : UpdateError → String
  | malformedAttributeList => "malformed attribute list"
  | unrecognizedWellKnown _ => "unrecognized well-known attribute"
  | missingWellKnown type => "missing well-known attribute: " ++ Named.name type
  | attributeFlags _ => "attribute flags error"
  | attributeLength _ => "attribute length error"
  | invalidOrigin _ => "invalid ORIGIN attribute"
  | invalidNextHop _ => "invalid NEXT_HOP attribute"
  | malformedAsPath => "malformed AS_PATH"

def message (e : UpdateError) : String := "UPDATE message error: " ++ e.cause

end UpdateError

/-- The error that a faulty value makes of its message; a discarded attribute makes none. -/
def AttrFault.updateError? (raw : Octets) : AttrFault → Option UpdateError
  | discard => none
  | invalidOrigin => some (.invalidOrigin raw)
  | invalidNextHop => some (.invalidNextHop raw)
  | malformedAsPath => some .malformedAsPath

end PathAttributes
