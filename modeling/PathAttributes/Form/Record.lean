import PathAttributes.Form.Basic

namespace PathAttributes

open JsonForm

namespace Json

def record (fields : List (String × Json)) : Json :=
  object (fields.map (fun f ↦ (f.1.toList.map Piece.ofChar, f.2)))

def variant (name : String) (content : Json) : Json := record [(name, content)]

def textKeys? (ms : List (List Piece × Json)) : Option (List (String × Json)) :=
  ms.mapM (fun m ↦ (Piece.chars? m.1).map (fun cs ↦ (String.ofList cs, m.2)))

/-- The values of an object's members in the order of the given names; none may occur twice. -/
def byName? (names : List String) (ms : List (String × Json)) : Option (List (Option Json)) :=
  let known := ms.filter (fun m ↦ names.contains m.1)
  if (known.map (·.1)).Nodup then some (names.map (fun n ↦ List.lookup n known)) else none

/-- The fields of a record, by name in an object or by place in an array. Members of other names are
passed over. -/
def fields? (names : List String) : Json → Option (List (Option Json))
  | array js => if js.length = names.length then some (js.map some) else none
  | object ms => do
    let ms ← textKeys? ms
    if ms.all (fun m ↦ names.contains m.1 || m.2.isClean) then byName? names ms else none
  | _ => none

/-- The settings of a record, all of which may be left out, but which has none of other names. -/
def settings? (names : List String) : Json → Option (List (Option Json))
  | array js =>
    if js.length ≤ names.length then
      some (js.map some ++ List.replicate (names.length - js.length) none)
    else none
  | object ms => do
    let ms ← textKeys? ms
    if ms.all (fun m ↦ names.contains m.1) then byName? names ms else none
  | _ => none

def variant? : Json → Option (String × Option Json)
  | string ps => (Piece.chars? ps).map (fun cs ↦ (String.ofList cs, none))
  | object [(k, j)] => (Piece.chars? k).map (fun cs ↦ (String.ofList cs, some j))
  | _ => none

def name? (j : Json) : Option String := do
  match ← j.variant? with
  | (name, none) => some name
  | (name, some null) => some name
  | _ => none

def content? (j : Json) : Option (String × Json) := do
  match ← j.variant? with
  | (name, some content) => some (name, content)
  | _ => none

end Json

instance {α : Type} [Named α] : JsonForm α :=
  ⟨fun a ↦ .ofText (Named.name a), fun j ↦ j.name?.bind Named.ofName?⟩

def JsonForm.required? {α : Type} [JsonForm α] (field : Option Json) : Option α :=
  field.bind ofJson?

def JsonForm.optional? {α : Type} [JsonForm α] (field : Option Json) : Option (Option α) :=
  ofJson? (field.getD .null)

def JsonForm.withDefault? {α : Type} [JsonForm α] (default : α) (field : Option Json) : Option α :=
  match field with
  | some j => ofJson? j
  | none => some default

end PathAttributes
