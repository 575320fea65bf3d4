import PathAttributes.Proofs.AttrList.Searched
import PathAttributes.Proofs.Form.Exact
import PathAttributes.Proofs.Section.Delimited

namespace PathAttributes

open JsonForm

variable {j : Json} {a : Attr} {l : AttrList}

namespace Json

def elementCount? : Json → Option Nat
  | array js => some js.length
  | _ => none

def attrId? (j : Json) : Option AttrId :=
  match j.fields? ["id", "flags", "value"] with
  | some [some id, _, _] => ofJson? id
  | _ => none

def octetCount? (j : Json) : Option Nat :=
  match j.fields? ["id", "flags", "value"] with
  | some [_, _, some value] => value.content?.bind (·.2.elementCount?)
  | _ => none

def AreAscending (i k : Option AttrId) : Prop := ∀ x ∈ i, ∀ y ∈ k, x.number < y.number

def Precedes (e f : Json) : Prop := AreAscending e.attrId? f.attrId?

def Fits (e : Json) : Prop := ∀ n ∈ e.octetCount?, n ≤ Blob.limit

theorem IsAttr.attrId?_eq (h : j.IsAttr a) : j.attrId? = some a.id := by
  obtain ⟨id, flags, value, hf, hi, -⟩ := h.members
  rw [attrId?, hf]
  exact hi

theorem elementCount?_octets (data : Octets) : (toJson data).elementCount? = some data.length :=
  congrArg some (List.length_map _)

theorem elementCount?_of_address {addr : Ipv4} (h : ofJson? j = some addr) :
    j.elementCount? = none := by
  cases j with
  | array js => cases h
  | _ => rfl

theorem IsValue.elementCount?_eq {v : Value} (h : j.IsValue v) :
    j.content?.bind (·.2.elementCount?) = v.blob?.map List.length := by
  obtain ⟨content, hc, hv⟩ := h
  rw [hc]
  show content.elementCount? = _
  cases v with
  | int n =>
    rw [hv]
    rfl
  | routerId addr => exact elementCount?_of_address hv
  | address addr => exact elementCount?_of_address hv
  | raw data => exact hv ▸ elementCount?_octets data
  | asPath data => exact hv ▸ elementCount?_octets data
  | intSet data => exact hv ▸ elementCount?_octets data

theorem IsAttr.octetCount?_eq (h : j.IsAttr a) :
    j.octetCount? = a.value.blob?.map List.length := by
  obtain ⟨id, flags, value, hf, -, -, hv⟩ := h.members
  rw [octetCount?, hf]
  exact hv.elementCount?_eq

variable {js : List Json}

theorem IsList.map_attrId? (h : j.IsList js l) :
    js.map attrId? = l.attrs.map (fun a ↦ some a.id) := by
  rw [← List.forall₂_eq_eq_eq, List.forall₂_map_left_iff, List.forall₂_map_right_iff]
  exact h.elements.imp (fun _ _ ↦ IsAttr.attrId?_eq)

theorem IsList.map_octetCount? (h : j.IsList js l) :
    js.map octetCount? = l.attrs.map (fun a ↦ a.value.blob?.map List.length) := by
  rw [← List.forall₂_eq_eq_eq, List.forall₂_map_left_iff, List.forall₂_map_right_iff]
  exact h.elements.imp (fun _ _ ↦ IsAttr.octetCount?_eq)

theorem IsList.pairwise_precedes_iff (h : j.IsList js l) :
    js.Pairwise Precedes ↔ AttrList.Ascending l.attrs := by
  calc
    js.Pairwise Precedes ↔ (js.map attrId?).Pairwise AreAscending := by
      rw [List.pairwise_map]
      exact Iff.rfl
    _ ↔ (l.attrs.map (fun a ↦ some a.id)).Pairwise AreAscending := by rw [h.map_attrId?]
    _ ↔ AttrList.Ascending l.attrs := by
      rw [List.pairwise_map]
      simp only [AreAscending, Option.mem_some_iff, forall_eq', AttrList.Ascending]

theorem IsList.forall_fits_iff (h : j.IsList js l) : (∀ e ∈ js, e.Fits) ↔ l.ValuesFit := by
  calc
    (∀ e ∈ js, e.Fits) ↔ ∀ n ∈ js.map octetCount?, ∀ k ∈ n, k ≤ Blob.limit := by
      rw [List.forall_mem_map]
      exact Iff.rfl
    _ ↔ ∀ n ∈ l.attrs.map (fun a ↦ a.value.blob?.map List.length), ∀ k ∈ n, k ≤ Blob.limit := by
      rw [h.map_octetCount?]
    _ ↔ l.ValuesFit := by
      rw [List.forall_mem_map]
      simp only [Option.mem_map, forall_exists_index, and_imp, forall_apply_eq_imp_iff₂,
        AttrList.ValuesFit, Value.Fits]

end Json

namespace AttrList

/-- A list is read from a text at its word: neither its mark nor the lengths of its values are
checked. So its mark is true, and its values can be announced, just when it is so in the text; and
just then it is searched, sorted, merged and sent as a list that was made otherwise. -/
theorem read?_at_its_word (s : String) (l : AttrList) :
    (JsonForm.read? s = some l ↔ ∃ j js, Json.parse? s = some j ∧ j.IsList js l) ∧
      (∀ (j : Json) (js : List Json), j.IsList js l →
        (l.Truthful ↔ (l.sorted = true → js.Pairwise Json.Precedes)) ∧
          (l.ValuesFit ↔ ∀ e ∈ js, e.Fits)) ∧
      (l.Truthful ↔ l.Interchangeable (ofList l.attrs)) ∧
      (l.Truthful → ∀ id, l.find? id = first? l.attrs id) ∧
      (l.Truthful ↔ (l.sorted = true → l.attrs.Nodup ∧ ∀ a ∈ l.attrs, l.find? a.id = some a)) ∧
      ((l.retain .bgp).ValuesFit ↔ l.Delimits ((l.retain .bgp).attrs.map Attr.tlv)) := by
  refine ⟨?_, ?_, truthful_iff_interchangeable, find?_eq_first?, truthful_iff_found,
    delimits_map_tlv_iff.symm⟩
  · rw [JsonForm.read?, Option.bind_eq_some_iff]
    simp only [ofJson?_attrList_iff, exists_and_left]
  · intro j js hjs
    refine ⟨?_, hjs.forall_fits_iff.symm⟩
    rw [hjs.pairwise_precedes_iff]
    exact Iff.rfl

def orderly : String :=
  "\x7b\"sorted\":true,\"attrs\":[" ++
    "\x7b\"id\":\x7b\"proto\":\"Bgp\",\"code\":1\x7d,\"flags\":\"\"," ++
    "\"value\":\x7b\"Int\":2\x7d\x7d,[[\"Bgp\",8],\"OPTIONAL\",\x7b\"Opaque\":[0,1]\x7d]]\x7d"

theorem read?_at_its_word_orderly :
    ∃ l : AttrList, JsonForm.read? orderly = some l ∧ l.sorted = true ∧
      (∀ id, l.find? id = first? l.attrs id) ∧ l.Delimits ((l.retain .bgp).attrs.map Attr.tlv) := by
  have hread : JsonForm.read? orderly =
      some (⟨[⟨.bgp 1, ⟨0⟩, .int 2⟩, ⟨.bgp 8, ⟨0x80⟩, .raw [0, 1]⟩], true⟩ : AttrList) := by
    decide +kernel
  obtain ⟨-, -, -, hfind, -, hdelimits⟩ := read?_at_its_word orderly
    ⟨[⟨.bgp 1, ⟨0⟩, .int 2⟩, ⟨.bgp 8, ⟨0x80⟩, .raw [0, 1]⟩], true⟩
  refine ⟨_, hread, rfl, hfind (fun _ ↦ by decide), hdelimits.1 (by decide)⟩

/-- The same mark on attributes that are not in order of their ids. -/
def disordered : String :=
  "\x7b\"attrs\":[\x7b\"id\":\x7b\"proto\":\"Bgp\",\"code\":5\x7d,\"flags\":\"\"," ++
    "\"value\":\x7b\"Int\":1\x7d\x7d,\x7b\"id\":\x7b\"proto\":\"Bgp\",\"code\":1\x7d," ++
    "\"flags\":\"\",\"value\":\x7b\"Int\":2\x7d\x7d],\"sorted\":true\x7d"

theorem read?_disordered :
    ∃ (l : AttrList) (a : Attr), JsonForm.read? disordered = some l ∧ l.sorted = true ∧
      ¬ Ascending l.attrs ∧ first? l.attrs AttrType.localPref.id = some a ∧
      l.find? AttrType.localPref.id = none ∧ l.sort ≠ Chain.merge [l] := by
  have hread : JsonForm.read? disordered =
      some (⟨[⟨.bgp 5, ⟨0⟩, .int 1⟩, ⟨.bgp 1, ⟨0⟩, .int 2⟩], true⟩ : AttrList) := by
    decide +kernel
  exact ⟨_, ⟨.bgp 5, ⟨0⟩, .int 1⟩, hread, rfl, by decide, by decide, by cbv, by decide +kernel⟩

end AttrList

end PathAttributes
