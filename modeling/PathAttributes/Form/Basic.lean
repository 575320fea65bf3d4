import PathAttributes.Ipv4
import PathAttributes.Json.Parser
import PathAttributes.Json.Printer
import PathAttributes.Named

namespace PathAttributes

class JsonForm (α : Type) where
  toJson : α → Json
  ofJson? : Json → Option α

namespace JsonForm

def write {α : Type} [JsonForm α] (a : α) : String := (toJson a).print

def read? {α : Type} [JsonForm α] (s : String) : Option α := (Json.parse? s).bind ofJson?

end JsonForm

open JsonForm

namespace Json

def naturalBelow? (limit : Nat) : Json → Option Nat
  | natural n => if n < limit then some n else none
  | _ => none

def bool? : Json → Option Bool
  | bool b => some b
  | _ => none

end Json

instance : JsonForm UInt8 :=
  ⟨fun n ↦ .natural n.toNat, fun j ↦ (j.naturalBelow? UInt8.size).map UInt8.ofNat⟩

instance : JsonForm UInt16 :=
  ⟨fun n ↦ .natural n.toNat, fun j ↦ (j.naturalBelow? UInt16.size).map UInt16.ofNat⟩

instance : JsonForm UInt32 :=
  ⟨fun n ↦ .natural n.toNat, fun j ↦ (j.naturalBelow? UInt32.size).map UInt32.ofNat⟩

instance : JsonForm UInt64 :=
  ⟨fun n ↦ .natural n.toNat, fun j ↦ (j.naturalBelow? UInt64.size).map UInt64.ofNat⟩

instance : JsonForm Bool := ⟨.bool, Json.bool?⟩

instance : JsonForm Ipv4 := ⟨fun a ↦ .ofChars a.chars, fun j ↦ j.chars?.bind Ipv4.ofChars?⟩

instance {α : Type} [JsonForm α] : JsonForm (List α) where
  toJson as := .array (as.map toJson)
  ofJson?
    | .array js => js.mapM ofJson?
    | _ => none

instance {α : Type} [JsonForm α] : JsonForm (Option α) where
  toJson
    | some a => toJson a
    | none => .null
  ofJson?
    | .null => some none
    | j => (ofJson? j).map some

end PathAttributes
