import PathAttributes.Form.Record
import PathAttributes.Notification

namespace PathAttributes

open JsonForm

instance : JsonForm Notification where
  toJson m := .record [("error_code", toJson m.errorCode), ("error_subcode", toJson m.errorSubcode),
    ("data", toJson m.data)]
  ofJson? j := do
    match ← j.fields? ["error_code", "error_subcode", "data"] with
    | [code, subcode, data] => return ⟨← required? code, ← required? subcode, ← required? data⟩
    | _ => none

def Json.octets? : Json → Option Octets
  | .string ps => some (Piece.octets ps)
  | j => ofJson? j

instance : JsonForm UpdateError where
  toJson e :=
    let name := Named.name e.subcode
    match e with
    | .unrecognizedWellKnown raw | .attributeFlags raw | .attributeLength raw | .invalidOrigin raw
    | .invalidNextHop raw => .variant name (toJson raw)
    | .missingWellKnown type => .variant name (toJson type)
    | .malformedAttributeList | .malformedAsPath => .ofText name
  ofJson? j := do
    let v ← j.variant?
    let isBare := match v.2 with
      | none => true
      | some .null => true
      | some _ => false
    match (Named.ofName? v.1 : Option UpdateSubcode) with
    | some .malformedAttributeList => if isBare then some .malformedAttributeList else none
    | some .malformedAsPath => if isBare then some .malformedAsPath else none
    | some .missingWellKnown => (v.2.bind ofJson?).map .missingWellKnown
    | some .unrecognizedWellKnown => (v.2.bind Json.octets?).map .unrecognizedWellKnown
    | some .attributeFlags => (v.2.bind Json.octets?).map .attributeFlags
    | some .attributeLength => (v.2.bind Json.octets?).map .attributeLength
    | some .invalidOrigin => (v.2.bind Json.octets?).map .invalidOrigin
    | some .invalidNextHop => (v.2.bind Json.octets?).map .invalidNextHop
    | _ => none

end PathAttributes
