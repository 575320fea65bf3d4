import PathAttributes.Proofs.AttrList.Canonical
import PathAttributes.Proofs.Section.RoundTrip

namespace PathAttributes

variable {a : Attr} {l : AttrList}

/-- The octets with which a value is sent: a number most significant octet first, the origin in one
octet and every other in four, an address in four, and octets as they are. -/
def Value.IsSentAs (code : UInt8) (v : Value) (data : Octets) : Prop :=
  match v with
  | .int n =>
    if code = 1 then data.length = 1 ∧ Octets.toNat data = n.toNat % 256
    else data.length = 4 ∧ Octets.toNat data = n.toNat
  | .routerId addr | .address addr => data.length = 4 ∧ Octets.toNat data = addr.bits.toNat
  | .raw blob | .asPath blob | .intSet blob => data = blob

namespace Attr

/-- What is read where an attribute was sent. The length announced for the value is the length that
the value has. -/
structure IsSentAs (a : Attr) (t : Tlv) : Prop where
  code : t.code = a.id.code
  flags : t.flags = if 255 < t.value.length then a.flags.bits ||| 0x10 else a.flags.bits
  value : a.value.IsSentAs a.id.code t.value
  length : Octets.toNat (Octets.ofNat (Tlv.lengthWidth t.flags) t.value.length) = t.value.length

theorem length_body_le (h : a.value.Fits) : a.body.length ≤ Blob.limit := by
  rw [body]
  split
  · rw [Octets.length_ofNat]
    split <;> decide
  · rw [Ipv4.octets, Octets.length_ofNat]
    decide
  · rw [Ipv4.octets, Octets.length_ofNat]
    decide
  all_goals
    rename_i hv
    exact h _ (by rw [hv]; rfl)

/-- Of the BGP attributes only the origin is sent in one octet. -/
theorem length_descriptor?_eq_one_iff (h : a.id.ns = .bgp) :
    a.descriptor?.bind (·.length) = some 1 ↔ a.id.code = 1 := by
  have hcode : ∀ code : UInt8, ((Numbered.ofCode? code : Option AttrType).map
      AttrType.descriptor).bind (·.length) = some 1 ↔ code = 1 := forall_octet (by decide +kernel)
  rw [descriptor?, AttrId.type?, if_pos h]
  exact hcode a.id.code

theorem isSentAs_body (h : a.id.ns = .bgp) : a.value.IsSentAs a.id.code a.body := by
  rw [body]
  simp only [length_descriptor?_eq_one_iff h]
  cases a.value with
  | int n =>
    have hlt : n.toNat < Octets.count 4 := n.toNat_lt
    simp only [Value.IsSentAs]
    split
    · exact ⟨Octets.length_ofNat _ _, Octets.toNat_ofNat _ _⟩
    · refine ⟨Octets.length_ofNat _ _, ?_⟩
      rw [Octets.toNat_ofNat, Nat.mod_eq_of_lt hlt]
  | routerId addr => exact ⟨Octets.length_ofNat _ _, Ipv4.toNat_octets addr⟩
  | address addr => exact ⟨Octets.length_ofNat _ _, Ipv4.toNat_octets addr⟩
  | raw data => rfl
  | asPath data => rfl
  | intSet data => rfl

theorem isSentAs_tlv (hns : a.id.ns = .bgp) (hf : a.value.Fits) : a.IsSentAs a.tlv := by
  refine ⟨rfl, ?_, isSentAs_body hns, ?_⟩
  · show a.wireFlags.bits = if 255 < a.body.length then a.flags.bits ||| 0x10 else a.flags.bits
    rw [wireFlags]
    split <;> rfl
  · rw [Octets.toNat_ofNat]
    exact Nat.mod_eq_of_lt (fits_tlv (length_body_le hf))

theorem body_of_blob? {data : Blob} (h : data ∈ a.value.blob?) : a.body = data := by
  rw [body]
  cases hv : a.value <;> rw [hv] at h <;> cases h <;> rfl

/-- The length that is announced is that of the value only where two octets can hold it. -/
theorem isSentAs_tlv_iff (hns : a.id.ns = .bgp) : a.IsSentAs a.tlv ↔ a.value.Fits := by
  refine ⟨fun h data hdata ↦ ?_, isSentAs_tlv hns⟩
  have hwidth : Octets.count (Tlv.lengthWidth a.tlv.flags) ≤ Blob.limit + 1 := by
    rw [Tlv.lengthWidth]
    split <;> decide
  have hlt := Nat.mod_lt a.body.length (Octets.count_pos (Tlv.lengthWidth a.tlv.flags))
  have hlength := h.length
  rw [Octets.toNat_ofNat] at hlength
  change a.body.length % _ = a.body.length at hlength
  rw [body_of_blob? hdata] at hlength hlt
  omega

end Attr

namespace AttrList

theorem ValuesFit.retain (h : l.ValuesFit) (ns : Namespace) : (l.retain ns).ValuesFit :=
  fun a ha ↦ h a (mem_retain.1 ha).1

/-- What a list is sent as is read attribute by attribute to its end, and in no other way. -/
structure Delimits (l : AttrList) (ts : List Tlv) : Prop where
  read : Tlv.split l.encode = (ts, [])
  sent : List.Forall₂ Attr.IsSentAs (l.retain .bgp).attrs ts
  octets : l.encode = ts.flatMap (fun t ↦ t.flags :: t.code ::
    (Octets.ofNat (if t.flags &&& 0x10 ≠ 0 then 2 else 1) t.value.length ++ t.value))
  unique : ∀ us : List Tlv, (∀ u ∈ us, u.Fits) → l.encode = us.flatMap Tlv.octets → us = ts

theorem encode_eq_flatMap (l : AttrList) :
    l.encode = (l.retain .bgp).attrs.flatMap (fun a ↦ (ofList [a]).encode) := by
  have hone : ∀ a ∈ (l.retain .bgp).attrs, a.octets = (ofList [a]).encode := by
    intro a ha
    simp [encode, retain, ofList, (mem_retain.1 ha).2]
  exact List.flatMap_congr hone

theorem encode_congr {m : AttrList} (h : (m.retain .bgp).attrs = (l.retain .bgp).attrs) :
    m.encode = l.encode := by
  rw [encode_eq_flatMap, h, ← encode_eq_flatMap]

theorem delimits_map_tlv (h : (l.retain .bgp).ValuesFit) :
    l.Delimits ((l.retain .bgp).attrs.map Attr.tlv) := by
  have hsent : ∀ a ∈ (l.retain .bgp).attrs, a.IsSentAs a.tlv ∧ a.tlv.Fits := by
    intro a ha
    exact ⟨Attr.isSentAs_tlv (mem_retain.1 ha).2 (h a ha),
      Attr.fits_tlv (Attr.length_body_le (h a ha))⟩
  have hfits : ∀ t ∈ (l.retain .bgp).attrs.map Attr.tlv, t.Fits := by
    intro t ht
    obtain ⟨a, ha, rfl⟩ := List.mem_map.1 ht
    exact (hsent a ha).2
  have hoctets : l.encode = ((l.retain .bgp).attrs.map Attr.tlv).flatMap Tlv.octets := encode_eq l
  constructor
  case read => rw [hoctets, Tlv.split_flatMap hfits]
  case sent =>
    rw [List.forall₂_map_right_iff, List.forall₂_same]
    exact fun a ha ↦ (hsent a ha).1
  case octets =>
    simp only [← Tlv.lengthWidth_eq]
    exact hoctets
  case unique =>
    intro us hus he
    exact Tlv.flatMap_octets_inj hus hfits (he.symm.trans hoctets)

/-- A list with a value too long to be announced is sent all the same, with a length that is not
true. -/
theorem delimits_map_tlv_iff :
    l.Delimits ((l.retain .bgp).attrs.map Attr.tlv) ↔ (l.retain .bgp).ValuesFit := by
  refine ⟨fun h a ha ↦ ?_, delimits_map_tlv⟩
  have hsent := h.sent
  rw [List.forall₂_map_right_iff, List.forall₂_same] at hsent
  exact (Attr.isSentAs_tlv_iff (mem_retain.1 ha).2).1 (hsent a ha)

/-- Whatever list is sent, what is sent tells where each attribute ends; the attributes are sent one
after the other, and those of other namespaces not at all. -/
theorem delimits_encode (h : l.ValuesFit) :
    (∃ ts, l.Delimits ts) ∧ l.encode = (l.retain .bgp).attrs.flatMap (fun a ↦ (ofList [a]).encode) ∧
      ∀ m : AttrList, (m.retain .bgp).attrs = (l.retain .bgp).attrs → m.encode = l.encode := by
  have hdelimits : l.Delimits ((l.retain .bgp).attrs.map Attr.tlv) :=
    delimits_map_tlv (h.retain .bgp)
  refine ⟨⟨_, hdelimits⟩, encode_eq_flatMap l, ?_⟩
  intro m hm
  exact encode_congr hm

/-- Two origins, of which one is a number too great for an octet and the other a long value, after a
preference with a flag that has no meaning. -/
def disorderly : AttrList := .ofList
  [⟨.bgp 5, ⟨0x8F⟩, .int 300⟩, ⟨⟨.ospf, 1⟩, ⟨0⟩, .int 10⟩, ⟨.bgp 1, ⟨0x10⟩, .int 300⟩,
    ⟨.bgp 1, ⟨0⟩, .raw (List.replicate 300 7)⟩]

theorem delimits_encode_disorderly :
    disorderly.ValuesFit ∧
      Tlv.split disorderly.encode =
        ([⟨0x8F, 5, [0, 0, 1, 44]⟩, ⟨0x10, 1, [44]⟩, ⟨0x10, 1, List.replicate 300 7⟩], []) := by
  have hfits : disorderly.ValuesFit := by decide +kernel
  obtain ⟨⟨ts, hts⟩, -⟩ := delimits_encode hfits
  refine ⟨hfits, ?_⟩
  rw [hts.read, ← hts.unique [⟨0x8F, 5, [0, 0, 1, 44]⟩, ⟨0x10, 1, [44]⟩,
    ⟨0x10, 1, List.replicate 300 7⟩] ?_ (by decide +kernel)]
  intro u hu
  simp only [List.mem_cons, List.not_mem_nil, or_false] at hu
  rcases hu with rfl | rfl | rfl
  · rw [Tlv.Fits]
    decide
  · rw [Tlv.Fits]
    decide
  · rw [Tlv.Fits, List.length_replicate]
    decide

end AttrList

end PathAttributes
