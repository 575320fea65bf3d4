import PathAttributes.Form.Message
import PathAttributes.Form.Route
import PathAttributes.Proofs.Form.Lawful

namespace PathAttributes

open JsonForm LawfulJsonForm

instance : LawfulJsonForm Flags where
  isWritable f := Json.isWritable_ofChars f.chars
  ofJson?_toJson f := Json.bind_chars?_ofChars f.ofChars?_chars

instance : LawfulJsonForm AttrId where
  isWritable _ := Json.isWritable_record (by simp [isWritable])
  ofJson?_toJson _ := Json.bind_fields?_record rfl (by decide) (by simp [required?_toJson])

instance : LawfulJsonForm Value where
  isWritable v := by
    apply Json.isWritable_variant
    cases v <;> exact isWritable _
  ofJson?_toJson v := by
    apply Json.bind_content?_variant
    cases v <;> simp only [Value.form, ofJson?_toJson, Option.map_some]

instance : LawfulJsonForm Attr where
  isWritable _ := Json.isWritable_record (by simp [isWritable])
  ofJson?_toJson _ := Json.bind_fields?_record rfl (by decide) (by simp [required?_toJson])

instance : LawfulJsonForm AttrList where
  isWritable _ := Json.isWritable_record (by simp [isWritable])
  ofJson?_toJson _ := Json.bind_fields?_record rfl (by decide) (by simp [required?_toJson])

instance : LawfulJsonForm PeerInfo where
  isWritable _ := Json.isWritable_record (by simp [isWritable])
  ofJson?_toJson _ := Json.bind_fields?_record rfl (by decide) (by simp [required?_toJson])

instance : LawfulJsonForm RouteOrigin where
  isWritable
    | .neighbor peer => Json.isWritable_variant (isWritable peer)
    | .protocol source => Json.isWritable_variant (isWritable source)
  ofJson?_toJson
    | .neighbor peer =>
      Json.bind_content?_variant (congrArg (Option.map _) (ofJson?_toJson peer))
    | .protocol source =>
      Json.bind_content?_variant (congrArg (Option.map _) (ofJson?_toJson source))

instance : LawfulJsonForm Route where
  isWritable _ := Json.isWritable_record (by simp [isWritable])
  ofJson?_toJson _ :=
    Json.bind_fields?_record rfl (by decide) (by simp [required?_toJson, optional?_toJson])

instance : LawfulJsonForm Record where
  isWritable _ := Json.isWritable_record (by simp [isWritable])
  ofJson?_toJson _ := Json.bind_fields?_record rfl (by decide) (by simp [required?_toJson])

instance : LawfulJsonForm Notification where
  isWritable _ := Json.isWritable_record (by simp [isWritable])
  ofJson?_toJson _ := Json.bind_fields?_record rfl (by decide) (by simp [required?_toJson])

theorem Json.octets?_toJson (raw : Octets) : (toJson raw).octets? = some raw := ofJson?_toJson raw

instance : LawfulJsonForm UpdateError where
  isWritable e := by
    cases e with
    | malformedAttributeList | malformedAsPath => exact Json.isWritable_ofChars _
    | missingWellKnown type => exact Json.isWritable_variant (isWritable type)
    | _ => exact Json.isWritable_variant (isWritable _)
  ofJson?_toJson e := by
    cases e with
    | malformedAttributeList | malformedAsPath =>
      apply Json.bind_variant?_ofText
      simp only [Named.ofName?_name, UpdateError.subcode, if_true]
    | missingWellKnown type =>
      apply Json.bind_variant?_variant
      simp only [Named.ofName?_name, UpdateError.subcode, Option.bind_some, ofJson?_toJson,
        Option.map_some]
    | _ raw =>
      apply Json.bind_variant?_variant
      simp only [Named.ofName?_name, UpdateError.subcode, Option.bind_some, Json.octets?_toJson,
        Option.map_some]

/-- The values of a type are written as JSON without blanks, each is read back as it was, and no two
are written in the same way. -/
structure JsonForm.Lossless (α : Type) [JsonForm α] : Prop where
  isCompact (a : α) : Json.IsCompact (write a)
  parse?_write (a : α) : Json.parse? (write a) = some (toJson a)
  read?_write (a : α) : read? (write a) = some a
  write_injective {a b : α} : write a = write b → a = b

theorem JsonForm.lossless {α : Type} [JsonForm α] [LawfulJsonForm α] : Lossless α :=
  ⟨fun a ↦ Json.isCompact_print (isWritable a), parse?_write, read?_write,
    fun h ↦ write_injective h⟩

/-- No value of attributes, routes or messages is lost in its JSON text: lists keep their mark,
flags the bits without a name, routes what they do not have, and values of octets each octet. -/
theorem JsonForm.lossless_lists_routes_and_messages :
    Lossless AttrList ∧ Lossless Attr ∧ Lossless Value ∧ Lossless Blob ∧ Lossless Flags ∧
      Lossless Route ∧ Lossless Record ∧ Lossless Notification ∧ Lossless UpdateError :=
  ⟨lossless, lossless, lossless, lossless, lossless, lossless, lossless, lossless, lossless⟩

end PathAttributes
