import PathAttributes.AttrList.Basic
import PathAttributes.Form.Record

namespace PathAttributes

open JsonForm

instance : JsonForm Flags := ⟨fun f ↦ .ofChars f.chars, fun j ↦ j.chars?.bind Flags.ofChars?⟩

instance : JsonForm AttrId where
  toJson i := .record [("proto", toJson i.ns), ("code", toJson i.code)]
  ofJson? j := do
    match ← j.fields? ["proto", "code"] with
    | [ns, code] => return ⟨← required? ns, ← required? code⟩
    | _ => none

instance : JsonForm Value where
  toJson v := .variant v.form (match v with
    | .int n => toJson n
    | .routerId a | .address a => toJson a
    | .raw data | .asPath data | .intSet data => toJson data)
  ofJson? j := do
    match ← j.content? with
    | ("Int", n) => (ofJson? n).map .int
    | ("RouterId", a) => (ofJson? a).map .routerId
    | ("Ip", a) => (ofJson? a).map .address
    | ("Opaque", data) => (ofJson? data).map .raw
    | ("AsPath", data) => (ofJson? data).map .asPath
    | ("IntSet", data) => (ofJson? data).map .intSet
    | _ => none

instance : JsonForm Attr where
  toJson a := .record [("id", toJson a.id), ("flags", toJson a.flags), ("value", toJson a.value)]
  ofJson? j := do
    match ← j.fields? ["id", "flags", "value"] with
    | [id, flags, value] => return ⟨← required? id, ← required? flags, ← required? value⟩
    | _ => none

instance : JsonForm AttrList where
  toJson l := .record [("attrs", toJson l.attrs), ("sorted", toJson l.sorted)]
  ofJson? j := do
    match ← j.fields? ["attrs", "sorted"] with
    | [attrs, sorted] => return ⟨← required? attrs, ← required? sorted⟩
    | _ => none

end PathAttributes
