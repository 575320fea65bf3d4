import PathAttributes.Proofs.Form.Exact
import PathAttributes.Proofs.Json.Nesting

namespace PathAttributes

open JsonForm

namespace Piece

theorem ofChar_cases (c : Char) :
    (ofChar c = plain c ∧ c ≠ '"' ∧ c ≠ '\\' ∧ isControl c = false) ∨
      (ofChar c = escaped c ∧ c ∈ letters.map (·.1)) ∨
      (ofChar c = unit c.toNat ∧ c.toNat < 0x20) := by
  rw [ofChar]
  split
  case isTrue h => exact .inl (h ▸ by decide)
  split
  case isTrue h => exact .inr (.inl ⟨rfl, by simpa using h⟩)
  case isFalse hletter =>
    split
    case isTrue h => exact .inr (.inr ⟨rfl, of_decide_eq_true h⟩)
    case isFalse h =>
      refine .inl ⟨rfl, ?_, ?_, by simpa using h⟩
      · rintro rfl
        exact hletter (by decide)
      · rintro rfl
        exact hletter (by decide)

theorem isWritable_ofChar (c : Char) : (ofChar c).IsWritable := by
  rcases ofChar_cases c with ⟨h, hquote, hslash, -⟩ | ⟨h, hletter⟩ | ⟨h, hlt⟩
  · exact h ▸ ⟨hquote, hslash⟩
  · exact h ▸ hletter
  · exact h ▸ Nat.lt_of_lt_of_le hlt (by decide)

theorem isClean_ofChar (c : Char) : (ofChar c).isClean = true := by
  rcases ofChar_cases c with ⟨h, -, -, hcontrol⟩ | ⟨h, -⟩ | ⟨h, -⟩
  · rw [h, isClean, hcontrol]
    rfl
  · exact h ▸ rfl
  · exact h ▸ rfl

theorem codes_unit {n : Nat} (h : isHighSurrogate n = false) (ps : List Piece) :
    codes (unit n :: ps) = n :: codes ps := by
  cases ps with
  | nil => rfl
  | cons p ps => cases p <;> simp [codes, h]

theorem codes_ofChar (c : Char) (ps : List Piece) :
    codes (ofChar c :: ps) = c.toNat :: codes ps := by
  rcases ofChar_cases c with ⟨h, -⟩ | ⟨h, -⟩ | ⟨h, hlt⟩
  · rw [h, codes]
  · rw [h, codes]
  · -- A control character is no half of a pair, whatever follows it.
    have hsurrogate : isHighSurrogate c.toNat = false := by
      simp only [isHighSurrogate, Bool.and_eq_false_iff, decide_eq_false_iff_not]
      omega
    rw [h, codes_unit hsurrogate]

theorem codes_map_ofChar (cs : List Char) : codes (cs.map ofChar) = cs.map Char.toNat := by
  induction cs with
  | nil => rfl
  | cons c cs ih => rw [List.map_cons, codes_ofChar, ih, List.map_cons]

theorem chars?_map_ofChar (cs : List Char) : chars? (cs.map ofChar) = some cs := by
  have hclean : (cs.map ofChar).all isClean = true := by
    simp [isClean_ofChar]
  have hvalid : (cs.map Char.toNat).all (fun n ↦ decide n.isValidChar) = true := by
    simp only [List.all_map, List.all_eq_true, Function.comp_apply, decide_eq_true_eq]
    exact fun c _ ↦ c.valid
  have hchars : (cs.map Char.toNat).map Char.ofNat = cs := by
    rw [List.map_map]
    exact List.map_id'' Char.ofNat_toNat cs
  rw [chars?, codes_map_ofChar, hclean, hvalid, hchars]
  rfl

end Piece

namespace Json

variable {name : String} {content : Json} {fs : List (String × Json)}

theorem isWritable_ofChars (cs : List Char) : (ofChars cs).IsWritable := by
  apply IsWritable.string
  rw [List.forall_mem_map]
  exact fun c _ ↦ Piece.isWritable_ofChar c

theorem bind_chars?_ofChars {α : Type} {a : α} {cs : List Char} {f : List Char → Option α}
    (h : f cs = some a) : (ofChars cs).chars?.bind f = some a := by
  rw [ofChars, chars?, Piece.chars?_map_ofChar, Option.bind_some, h]

theorem isWritable_record (h : ∀ f ∈ fs, f.2.IsWritable) : (record fs).IsWritable := by
  apply IsWritable.object
  · rw [List.forall_mem_map]
    intro f _
    rw [List.forall_mem_map]
    exact fun c _ ↦ Piece.isWritable_ofChar c
  · rw [List.forall_mem_map]
    exact h

theorem isWritable_variant (h : content.IsWritable) : (variant name content).IsWritable :=
  isWritable_record (List.forall_mem_singleton.2 h)

theorem variant?_ofText (name : String) : (ofText name).variant? = some (name, none) := by
  rw [ofText, ofChars, variant?, Piece.chars?_map_ofChar, Option.map_some, String.ofList_toList]

theorem variant?_variant (name : String) (content : Json) :
    (variant name content).variant? = some (name, some content) := by
  show (Piece.chars? (name.toList.map Piece.ofChar)).map _ = _
  rw [Piece.chars?_map_ofChar, Option.map_some, String.ofList_toList]

theorem bind_variant?_ofText {α : Type} {a : α} {f : String × Option Json → Option α}
    (h : f (name, none) = some a) : (ofText name).variant?.bind f = some a := by
  rw [variant?_ofText, Option.bind_some, h]

theorem bind_variant?_variant {α : Type} {a : α} {f : String × Option Json → Option α}
    (h : f (name, some content) = some a) : (variant name content).variant?.bind f = some a := by
  rw [variant?_variant, Option.bind_some, h]

theorem bind_content?_variant {α : Type} {a : α} {f : String × Json → Option α}
    (h : f (name, content) = some a) : (variant name content).content?.bind f = some a := by
  rw [content?, variant?_variant]
  exact h

theorem textKeys?_record (fs : List (String × Json)) :
    textKeys? (fs.map (fun f ↦ (f.1.toList.map Piece.ofChar, f.2))) = some fs := by
  rw [textKeys?, mapM_eq_some_iff, List.forall₂_map_left_iff, List.forall₂_same]
  intro f _
  rw [Piece.chars?_map_ofChar, Option.map_some, String.ofList_toList]

theorem lookup_of_mem (hd : (fs.map (·.1)).Nodup) {f : String × Json} (hf : f ∈ fs) :
    fs.lookup f.1 = some f.2 := by
  obtain ⟨gs, hs, rfl⟩ := List.append_of_mem hf
  refine List.lookup_eq_some_iff.2 ⟨gs, hs, rfl, fun g hg ↦ bne_iff_ne.2 ?_⟩
  rw [List.map_append, List.map_cons] at hd
  have hne : g.1 ≠ f.1 :=
    (List.nodup_append.1 hd).2.2 g.1 (List.mem_map_of_mem hg) f.1 List.mem_cons_self
  exact hne.symm

theorem byName?_of_nodup (hd : (fs.map (·.1)).Nodup) :
    byName? (fs.map (·.1)) fs = some (fs.map (fun f ↦ some f.2)) := by
  have hknown : fs.filter (fun m ↦ (fs.map (·.1)).contains m.1) = fs := by
    rw [List.filter_eq_self]
    exact fun f hf ↦ List.contains_iff_mem.2 (List.mem_map_of_mem hf)
  have hvalues : (fs.map (·.1)).map (fun n ↦ fs.lookup n) = fs.map (fun f ↦ some f.2) := by
    rw [List.map_map]
    exact List.map_congr_left (fun f hf ↦ lookup_of_mem hd hf)
  simp only [byName?, hknown, if_pos hd, hvalues]

theorem fields?_record (hd : (fs.map (·.1)).Nodup) :
    (record fs).fields? (fs.map (·.1)) = some (fs.map (fun f ↦ some f.2)) := by
  have hnames : fs.all (fun m ↦ (fs.map (·.1)).contains m.1 || m.2.isClean) = true := by
    rw [List.all_eq_true]
    intro f hf
    rw [List.contains_iff_mem.2 (List.mem_map_of_mem hf), Bool.true_or]
  show (textKeys? _).bind _ = _
  rw [textKeys?_record, Option.bind_some, if_pos hnames, byName?_of_nodup hd]

theorem bind_fields?_record {α : Type} {a : α} {names : List String}
    {f : List (Option Json) → Option α} (hn : names = fs.map (·.1)) (hd : names.Nodup)
    (h : f (fs.map (fun m ↦ some m.2)) = some a) : ((record fs).fields? names).bind f = some a := by
  subst hn
  rw [fields?_record hd, Option.bind_some, h]

end Json

/-- The form of a value stands for that value, and can be read from its own text. -/
class LawfulJsonForm (α : Type) [JsonForm α] : Prop where
  isWritable (a : α) : (toJson a).IsWritable
  ofJson?_toJson (a : α) : ofJson? (toJson a) = some a

open LawfulJsonForm

namespace JsonForm

variable {α : Type} [JsonForm α] [LawfulJsonForm α]

theorem required?_toJson (a : α) : required? (some (toJson a)) = some a := ofJson?_toJson a

theorem parse?_write (a : α) : Json.parse? (write a) = some (toJson a) :=
  Json.parse?_print (isWritable a)

theorem read?_write (a : α) : read? (write a) = some a := by
  rw [read?, parse?_write, Option.bind_some, ofJson?_toJson]

theorem write_injective : Function.Injective (write : α → String) := by
  intro a b h
  have hb := read?_write b
  rw [← h, read?_write] at hb
  exact Option.some.inj hb

end JsonForm

theorem JsonForm.optional?_toJson {α : Type} [JsonForm α] [LawfulJsonForm (Option α)]
    (o : Option α) : optional? (some (toJson o)) = some o := ofJson?_toJson o

theorem Json.map_naturalBelow?_natural {α : Type} {limit n : Nat} {f : Nat → α} {a : α}
    (hn : n < limit) (hf : f n = a) : ((natural n).naturalBelow? limit).map f = some a := by
  rw [naturalBelow?_eq_some_iff.2 ⟨rfl, hn⟩, Option.map_some, hf]

instance : LawfulJsonForm UInt8 :=
  ⟨fun _ ↦ .natural _, fun n ↦ Json.map_naturalBelow?_natural n.toNat_lt UInt8.ofNat_toNat⟩

instance : LawfulJsonForm UInt16 :=
  ⟨fun _ ↦ .natural _, fun n ↦ Json.map_naturalBelow?_natural n.toNat_lt UInt16.ofNat_toNat⟩

instance : LawfulJsonForm UInt32 :=
  ⟨fun _ ↦ .natural _, fun n ↦ Json.map_naturalBelow?_natural n.toNat_lt UInt32.ofNat_toNat⟩

instance : LawfulJsonForm UInt64 :=
  ⟨fun _ ↦ .natural _, fun n ↦ Json.map_naturalBelow?_natural n.toNat_lt UInt64.ofNat_toNat⟩

instance : LawfulJsonForm Bool := ⟨.bool, fun _ ↦ rfl⟩

instance : LawfulJsonForm Ipv4 where
  isWritable a := Json.isWritable_ofChars a.chars
  ofJson?_toJson a := Json.bind_chars?_ofChars a.ofChars?_chars

instance {α : Type} [Named α] : LawfulJsonForm α where
  isWritable a := Json.isWritable_ofChars _
  ofJson?_toJson a := by
    show (Json.name? (.ofText (Named.name a))).bind _ = _
    rw [Json.name?, Json.variant?_ofText]
    exact Named.ofName?_name a

instance {α : Type} [JsonForm α] [LawfulJsonForm α] : LawfulJsonForm (List α) where
  isWritable as := by
    apply Json.IsWritable.array
    rw [List.forall_mem_map]
    exact fun a _ ↦ isWritable a
  ofJson?_toJson as := by
    refine ofJson?_list_iff.2 ⟨as.map toJson, rfl, ?_⟩
    rw [List.forall₂_map_left_iff, List.forall₂_same]
    exact fun a _ ↦ ofJson?_toJson a

theorem ofJson?_option_of_ne_null {α : Type} [JsonForm α] {j : Json} (h : j ≠ .null) :
    (ofJson? j : Option (Option α)) = (ofJson? j).map some := by
  cases j with
  | null => exact absurd rfl h
  | _ => rfl

theorem LawfulJsonForm.option {α : Type} [JsonForm α] [LawfulJsonForm α]
    (h : ∀ a : α, toJson a ≠ .null) : LawfulJsonForm (Option α) where
  isWritable
    | none => .null
    | some a => isWritable a
  ofJson?_toJson
    | none => rfl
    | some a => by
      show ofJson? (toJson a) = some (some a)
      rw [ofJson?_option_of_ne_null (h a), ofJson?_toJson, Option.map_some]

instance : LawfulJsonForm (Option Ipv4) := .option (fun _ h ↦ by cases h)

instance : LawfulJsonForm (Option UInt32) := .option (fun _ h ↦ by cases h)

end PathAttributes
