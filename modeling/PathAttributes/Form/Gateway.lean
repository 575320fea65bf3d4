import PathAttributes.Form.Record
import PathAttributes.Session.Peering

namespace PathAttributes

open JsonForm

instance : JsonForm Gateway where
  toJson g := .record [("addr", toJson g.addr), ("ifindex", toJson g.ifindex)]
  ofJson? j := do
    match ← j.fields? ["addr", "ifindex"] with
    | [addr, ifindex] => return ⟨← required? addr, ← required? ifindex⟩
    | _ => none

end PathAttributes
