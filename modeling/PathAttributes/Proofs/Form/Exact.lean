import Mathlib.Data.List.Forall2
import PathAttributes.Form.Attribute

namespace PathAttributes

open JsonForm

variable {j : Json} {a : Attr} {l : AttrList}

theorem mapM_eq_some_iff {α β : Type} {f : α → Option β} {as : List α} {bs : List β} :
    as.mapM f = some bs ↔ List.Forall₂ (fun a b ↦ f a = some b) as bs := by
  constructor
  · intro h
    induction as generalizing bs with
    | nil =>
      cases h
      exact .nil
    | cons a as ih =>
      rw [List.mapM_cons] at h
      obtain ⟨b, hb, h⟩ := Option.bind_eq_some_iff.1 h
      obtain ⟨cs, hcs, h⟩ := Option.bind_eq_some_iff.1 h
      cases h
      exact .cons hb (ih hcs)
  · intro h
    induction h with
    | nil => rfl
    | cons hb _ ih =>
      rw [List.mapM_cons, hb, ih]
      rfl

theorem Json.naturalBelow?_eq_some_iff {limit n : Nat} :
    j.naturalBelow? limit = some n ↔ j = .natural n ∧ n < limit := by
  cases j with
  | natural m =>
    rw [naturalBelow?, Option.ite_none_right_eq_some, Option.some.injEq, Json.natural.injEq]
    constructor
    · rintro ⟨hm, rfl⟩
      exact ⟨rfl, hm⟩
    · rintro ⟨rfl, hm⟩
      exact ⟨hm, rfl⟩
  | _ => simp [naturalBelow?]

theorem ofJson?_bool_iff {b : Bool} : ofJson? j = some b ↔ j = .bool b := by
  cases j <;> simp [ofJson?, Json.bool?]

theorem ofJson?_uint8_iff {b : UInt8} : ofJson? j = some b ↔ j = toJson b := by
  show (j.naturalBelow? UInt8.size).map UInt8.ofNat = some b ↔ j = .natural b.toNat
  rw [Option.map_eq_some_iff]
  constructor
  · rintro ⟨n, hn, rfl⟩
    obtain ⟨rfl, hlt⟩ := Json.naturalBelow?_eq_some_iff.1 hn
    rw [UInt8.toNat_ofNat_of_lt' hlt]
  · rintro rfl
    exact ⟨b.toNat, Json.naturalBelow?_eq_some_iff.2 ⟨rfl, b.toNat_lt⟩, UInt8.ofNat_toNat⟩

theorem ofJson?_uint32_iff {n : UInt32} : ofJson? j = some n ↔ j = toJson n := by
  show (j.naturalBelow? UInt32.size).map UInt32.ofNat = some n ↔ j = .natural n.toNat
  rw [Option.map_eq_some_iff]
  constructor
  · rintro ⟨m, hm, rfl⟩
    obtain ⟨rfl, hlt⟩ := Json.naturalBelow?_eq_some_iff.1 hm
    rw [UInt32.toNat_ofNat_of_lt' hlt]
  · rintro rfl
    exact ⟨n.toNat, Json.naturalBelow?_eq_some_iff.2 ⟨rfl, n.toNat_lt⟩, UInt32.ofNat_toNat⟩

theorem ofJson?_list_iff {α : Type} [JsonForm α] {as : List α} :
    ofJson? j = some as ↔
      ∃ js, j = .array js ∧ List.Forall₂ (fun e a ↦ ofJson? e = some a) js as := by
  cases j with
  | array js =>
    show js.mapM ofJson? = some as ↔ _
    rw [mapM_eq_some_iff]
    simp
  | _ => simp [ofJson?]

theorem ofJson?_octets_iff {data : Octets} : ofJson? j = some data ↔ j = toJson data := by
  rw [ofJson?_list_iff]
  simp only [ofJson?_uint8_iff]
  have hmap (js : List Json) :
      List.Forall₂ (fun e (b : UInt8) ↦ e = toJson b) js data ↔ js = data.map toJson := by
    rw [← List.forall₂_eq_eq_eq, List.forall₂_map_right_iff]
  simp only [hmap, exists_eq_right]
  exact Iff.rfl

namespace Json

/-- A JSON value that is read as the value of an attribute: by the name of its form, and numbers and
octets as they stand. -/
def IsValue (j : Json) (v : Value) : Prop :=
  ∃ content, j.content? = some (v.form, content) ∧
    match v with
    | .int n => content = toJson n
    | .routerId addr | .address addr => ofJson? content = some addr
    | .raw data | .asPath data | .intSet data => content = toJson data

end Json

theorem ofJson?_value_iff {v : Value} : ofJson? j = some v ↔ j.IsValue v := by
  constructor
  · intro h
    obtain ⟨⟨name, content⟩, hc, h⟩ := Option.bind_eq_some_iff.1 h
    split at h
    case h_7 => cases h
    all_goals
      rename_i he
      obtain ⟨hname, hcontent⟩ := Prod.mk.inj he
      obtain ⟨x, hx, rfl⟩ := Option.map_eq_some_iff.1 h
      rw [hname, hcontent] at hc
      refine ⟨_, hc, ?_⟩
    case h_1 => exact ofJson?_uint32_iff.1 hx
    case h_2 => exact hx
    case h_3 => exact hx
    all_goals exact ofJson?_octets_iff.1 hx
  · rintro ⟨content, hc, h⟩
    show j.content?.bind _ = some v
    rw [hc]
    cases v with
    | int n => exact congrArg (Option.map Value.int) (ofJson?_uint32_iff.2 h)
    | routerId addr => exact congrArg (Option.map Value.routerId) h
    | address addr => exact congrArg (Option.map Value.address) h
    | raw data => exact congrArg (Option.map Value.raw) (ofJson?_octets_iff.2 h)
    | asPath data => exact congrArg (Option.map Value.asPath) (ofJson?_octets_iff.2 h)
    | intSet data => exact congrArg (Option.map Value.intSet) (ofJson?_octets_iff.2 h)

namespace Json

structure IsAttr (j : Json) (a : Attr) : Prop where
  members : ∃ id flags value, j.fields? ["id", "flags", "value"] =
    some [some id, some flags, some value] ∧ ofJson? id = some a.id ∧
      ofJson? flags = some a.flags ∧ value.IsValue a.value

structure IsList (j : Json) (js : List Json) (l : AttrList) : Prop where
  members : j.fields? ["attrs", "sorted"] = some [some (.array js), some (.bool l.sorted)]
  elements : List.Forall₂ IsAttr js l.attrs

end Json

theorem required?_eq_some_iff {α : Type} [JsonForm α] {field : Option Json} {x : α} :
    required? field = some x ↔ ∃ j, field = some j ∧ ofJson? j = some x :=
  Option.bind_eq_some_iff

theorem ofJson?_attr_iff : ofJson? j = some a ↔ j.IsAttr a := by
  constructor
  · intro h
    obtain ⟨fields, hf, h⟩ := Option.bind_eq_some_iff.1 h
    split at h
    · obtain ⟨i, hi, h⟩ := Option.bind_eq_some_iff.1 h
      obtain ⟨f, hflags, h⟩ := Option.bind_eq_some_iff.1 h
      obtain ⟨v, hv, h⟩ := Option.bind_eq_some_iff.1 h
      cases h
      obtain ⟨id, rfl, hi⟩ := required?_eq_some_iff.1 hi
      obtain ⟨flags, rfl, hflags⟩ := required?_eq_some_iff.1 hflags
      obtain ⟨value, rfl, hv⟩ := required?_eq_some_iff.1 hv
      exact ⟨id, flags, value, hf, hi, hflags, ofJson?_value_iff.1 hv⟩
    · cases h
  · rintro ⟨id, flags, value, hf, hi, hflags, hv⟩
    show (j.fields? _).bind _ = some a
    rw [hf]
    show (required? (some id)).bind _ = some a
    simp only [required?, Option.bind_some, hi, hflags, ofJson?_value_iff.2 hv]
    rfl

theorem ofJson?_attrList_iff : ofJson? j = some l ↔ ∃ js, j.IsList js l := by
  constructor
  · intro h
    obtain ⟨fields, hf, h⟩ := Option.bind_eq_some_iff.1 h
    split at h
    · obtain ⟨attrs, hattrs, h⟩ := Option.bind_eq_some_iff.1 h
      obtain ⟨mark, hmark, h⟩ := Option.bind_eq_some_iff.1 h
      cases h
      obtain ⟨e, rfl, hattrs⟩ := required?_eq_some_iff.1 hattrs
      obtain ⟨b, rfl, hmark⟩ := required?_eq_some_iff.1 hmark
      obtain ⟨js, rfl, hjs⟩ := ofJson?_list_iff.1 hattrs
      rw [ofJson?_bool_iff.1 hmark] at hf
      exact ⟨js, hf, hjs.imp (fun _ _ ↦ ofJson?_attr_iff.1)⟩
    · cases h
  · rintro ⟨js, hf, hjs⟩
    have hattrs : ofJson? (.array js) = some l.attrs :=
      ofJson?_list_iff.2 ⟨js, rfl, hjs.imp (fun _ _ ↦ ofJson?_attr_iff.2)⟩
    have hmark : ofJson? (.bool l.sorted) = some l.sorted := rfl
    show (j.fields? _).bind _ = some l
    rw [hf]
    show (required? (some (.array js))).bind _ = some l
    simp only [required?, Option.bind_some, hattrs, hmark]
    rfl

end PathAttributes
