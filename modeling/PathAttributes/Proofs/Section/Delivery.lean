import Mathlib.Data.List.Nodup
import PathAttributes.Proofs.AttrList.First
import PathAttributes.Proofs.Section.RoundTrip

namespace PathAttributes

open Tlv

namespace Attr

variable {a : Attr} {type : AttrType} {v : Value}

theorem wellFormed_bgp (type : AttrType) (h : type.Keeps v) : (Attr.bgp type v).WellFormed := by
  have htype {type' : AttrType} (hc : (Attr.bgp type v).id.code = Numbered.code type') :
      type = type' := Numbered.code_injective hc
  have hunknown : ¬AttrType.IsUnknown (Attr.bgp type v).id.code := AttrType.not_isUnknown_code type
  refine ⟨?_, ?_, ?_, ?_, ?_, ?_⟩
  · show type.descriptor.flags.bits &&& 0x0F = 0
    cases type <;> decide
  · intro type' hc
    rw [← htype hc]
    show type.descriptor.flags.bits &&& 0xC0 = type.descriptor.flags.bits
    cases type <;> decide
  · intro type' hc
    rw [← htype hc]
    exact h
  · exact fun hu ↦ absurd hu hunknown
  · exact fun hu ↦ absurd hu hunknown
  · exact fun hu ↦ absurd hu hunknown

/-- Of the attributes that are known only the path can be long. -/
theorem WellFormed.sent_eq_self (h : a.WellFormed) (type : AttrType) (hid : a.id = type.id)
    (hp : type ≠ .asPath) :
    a.sent = a := by
  have hl : type.HasLength a.body := (h.agrees (by rw [hid]; rfl) (congrArg AttrId.code hid)).length
  have hle : a.body.length ≤ 255 := by
    cases type with
    | asPath => exact absurd rfl hp
    | origin => simp [hl 1 rfl]
    | nextHop | multiExitDisc | localPref => simp [hl 4 rfl]
    | atomicAggregate => simp [hl 0 rfl]
    | aggregator => simp [hl 6 rfl]
  exact if_neg (Nat.not_lt_of_le hle)

/-- No value that an attribute is kept with is one of a set. -/
theorem canonicalAttr_eq_self (h : a.tlv.keptValue = a.value) : AttrList.canonicalAttr a = a := by
  rw [AttrList.canonicalAttr]
  split
  · rename_i data hv
    rw [hv, keptValue] at h
    split at h
    · rename_i type hc
      cases type <;> cases h
    · cases h
  · rfl

end Attr

namespace AttrList

variable {l : AttrList} {a : Attr}

def IsRead (l : AttrList) : Prop := ∃ context bs, decode context bs = .ok l

namespace IsRead

theorem sorted (h : l.IsRead) : l.sorted = true := by
  obtain ⟨context, bs, hd⟩ := h
  obtain ⟨ts, -, -, hs⟩ := exists_admissible_of_decode hd
  exact hs.sorted

theorem ascending (h : l.IsRead) : Ascending l.attrs := by
  obtain ⟨context, bs, hd⟩ := h
  obtain ⟨ts, -, -, hs⟩ := exists_admissible_of_decode hd
  exact hs.ascending

theorem exists_attr (h : l.IsRead) (ha : a ∈ l.attrs) :
    ∃ t : Tlv, t.Conforms ∧ t.Fits ∧ a = t.attr := by
  obtain ⟨context, bs, hd⟩ := h
  obtain ⟨ts, -, hadm, hs⟩ := exists_admissible_of_decode hd
  exact attrs_of_sorts hadm hs ha

theorem wellFormed (h : l.IsRead) (ha : a ∈ l.attrs) : a.WellFormed := by
  obtain ⟨t, hc, hf, rfl⟩ := h.exists_attr ha
  exact wellFormed_attr hc hf

theorem ns (h : l.IsRead) (ha : a ∈ l.attrs) : a.id.ns = .bgp := by
  obtain ⟨t, -, -, rfl⟩ := h.exists_attr ha
  rfl

theorem sent_eq_self (h : l.IsRead) (ha : a ∈ l.attrs) : a.sent = a := by
  obtain ⟨t, hc, hf, rfl⟩ := h.exists_attr ha
  exact sent_attr hc hf

theorem exists_get? (h : l.IsRead) (type : AttrType)
    (hm : type ∈ [AttrType.origin, .asPath, .nextHop, .localPref]) :
    ∃ a, l.get? type = some a := by
  obtain ⟨context, bs, hd⟩ := h
  obtain ⟨ts, -, hadm, hs⟩ := exists_admissible_of_decode hd
  obtain ⟨a, ha, hid⟩ := (wireValid_of_sorts hadm hs).present type hm
  exact ⟨a, get?_of_sorts hs (hs.perm.mem_iff.1 ha) hid⟩

theorem keeps (h : l.IsRead) {type : AttrType} (ha : l.get? type = some a) :
    type.Keeps a.value := by
  obtain ⟨hmem, hid⟩ := mem_of_find? ha
  exact (h.wellFormed hmem).value type (congrArg AttrId.code hid)

theorem exists_asPath (h : l.IsRead) :
    ∃ path, (l.get? .asPath).bind (·.value.asPath?) = some path ∧ AsPath.IsWhole path := by
  obtain ⟨a, ha⟩ := h.exists_get? .asPath (by decide)
  have hk := h.keeps ha
  rw [ha]
  cases hv : a.value with
  | asPath data =>
    rw [hv] at hk
    exact ⟨data, congrArg Value.asPath? hv, hk.1⟩
  | int | routerId | address | raw | intSet =>
    rw [hv] at hk
    exact hk.elim

theorem isUsable_nextHop (h : l.IsRead) {hop : Ipv4}
    (hn : (l.get? .nextHop).bind (·.value.address?) = some hop) : hop.isUsable = true := by
  obtain ⟨a, ha, hv⟩ := Option.bind_eq_some_iff.1 hn
  have hk := h.keeps ha
  cases hval : a.value with
  | address addr =>
    rw [hval] at hk hv
    cases hv
    exact (Ipv4.isUsable_iff _).2 hk
  | int | routerId | asPath | raw | intSet =>
    rw [hval] at hv
    cases hv

end IsRead

end AttrList

/-- What a peer makes of an attribute: the flag of the longer length is added to a long path, and a
peer of another AS has its own preference. -/
def Attr.received (context : Context) (a : Attr) : Attr :=
  if context.peerType = .external ∧ a.id = AttrType.localPref.id then
    defaultPreference context.defaultLocalPref
  else if a.id = AttrType.asPath.id ∧ 255 < a.body.length then
    { a with flags := a.flags.union .extendedBit }
  else a

namespace AttrList

variable {context : Context} {l : AttrList} {a : Attr}

/-- The attributes of a list make up a section, which alters none of them but the path. -/
structure Deliverable (l : AttrList) : Prop where
  ascending : Ascending l.attrs
  bgp : ∀ a ∈ l.attrs, a.id.ns = .bgp
  wellFormed : ∀ a ∈ l.attrs, a.WellFormed
  settled : ∀ a ∈ l.attrs, a.id ≠ AttrType.asPath.id → a.sent = a
  mandatory : ∀ type ∈ [AttrType.origin, .asPath, .nextHop], ∃ a ∈ l.attrs, a.id = type.id

theorem id_received (context : Context) (a : Attr) : (a.received context).id = a.id := by
  simp only [Attr.received]
  split
  · rename_i h
    exact h.2.symm
  · split <;> rfl

theorem isKept_tlv (hns : a.id.ns = .bgp) (peer : PeerType) :
    a.tlv.isKept peer = true ↔ ¬(peer = .external ∧ a.id = AttrType.localPref.id) := by
  have hid : a.id = AttrType.localPref.id ↔ a.tlv.code = Numbered.code AttrType.localPref :=
    ⟨fun h ↦ congrArg AttrId.code h, Attr.id_eq_of_code hns⟩
  rw [hid]
  cases peer <;> simp [isKept]

namespace Deliverable

theorem admissible (h : l.Deliverable) (peer : PeerType) :
    Admissible peer (l.attrs.map Attr.tlv) :=
  admissible_map_tlv h.bgp h.wellFormed h.ascending.nodup h.mandatory peer

theorem received_eq_sent (h : l.Deliverable) (ha : a ∈ l.attrs)
    (hp : ¬(context.peerType = .external ∧ a.id = AttrType.localPref.id)) :
    a.received context = a.tlv.attr := by
  rw [(h.wellFormed a ha).attr_tlv (h.bgp a ha), Attr.received, if_neg hp]
  by_cases hid : a.id = AttrType.asPath.id
  · simp only [Attr.sent, hid, true_and]
  · rw [if_neg (fun hc ↦ hid hc.1), h.settled a ha hid]

theorem described_eq (h : l.Deliverable) (context : Context) :
    described context (l.attrs.map Attr.tlv) =
      (l.attrs.filter (fun a ↦ a.tlv.isKept context.peerType)).map (Attr.received context) ++
        if Numbered.code AttrType.localPref ∈ keptCodes context.peerType (l.attrs.map Attr.tlv) then []
        else [defaultPreference context.defaultLocalPref] := by
  rw [described, List.filter_map, List.map_map]
  congr 1
  refine List.map_congr_left (fun a ha ↦ ?_)
  obtain ⟨hmem, hk⟩ := List.mem_filter.1 ha
  exact (h.received_eq_sent hmem ((isKept_tlv (h.bgp a hmem) _).1 hk)).symm

theorem decode_eq (h : l.Deliverable) {attrs : List Attr} (ha : Ascending attrs)
    (hp : attrs.Perm (described context (l.attrs.map Attr.tlv))) :
    decode context l.encode = .ok ⟨attrs, true⟩ := by
  rw [encode_eq, retain_eq_self h.bgp]
  exact decode_of_sorts (h.admissible context.peerType) ⟨rfl, ha, hp⟩

theorem ascending_received (h : l.Deliverable) (context : Context) :
    Ascending (l.attrs.map (Attr.received context)) := by
  apply List.pairwise_map.2
  simp only [id_received]
  exact h.ascending

theorem perm_cons_filter (h : l.Deliverable) (ha : a ∈ l.attrs)
    (hid : a.id = AttrType.localPref.id) :
    l.attrs.Perm (a :: l.attrs.filter (fun b ↦ b.tlv.isKept .external)) := by
  have hnodup : l.attrs.Nodup := .of_map Attr.id h.ascending.nodup
  have herase : l.attrs.erase a = l.attrs.filter (fun b ↦ b.tlv.isKept .external) := by
    rw [hnodup.erase_eq_filter]
    refine List.filter_congr (fun b hb ↦ Bool.eq_iff_iff.2 ?_)
    rw [isKept_tlv (h.bgp b hb), bne_iff_ne]
    refine not_congr ⟨?_, ?_⟩
    · rintro rfl
      exact ⟨rfl, hid⟩
    · intro ⟨_, hb'⟩
      exact List.inj_on_of_nodup_map h.ascending.nodup hb ha (hb'.trans hid.symm)
  rw [← herase]
  exact List.perm_cons_erase ha

/-- What is kept of a list with a preference: within an AS all of it, and else all but the
preference, in whose place there is that of the receiver. -/
theorem described_perm_received (h : l.Deliverable) (context : Context)
    (hp : ∃ a ∈ l.attrs, a.id = AttrType.localPref.id) :
    (l.attrs.map (Attr.received context)).Perm (described context (l.attrs.map Attr.tlv)) := by
  obtain ⟨a, ha, hid⟩ := hp
  rw [h.described_eq]
  cases hpeer : context.peerType with
  | internal =>
    have hall : l.attrs.filter (fun a ↦ a.tlv.isKept .internal) = l.attrs :=
      List.filter_eq_self.2 (fun _ _ ↦ rfl)
    have hcode : Numbered.code AttrType.localPref ∈ keptCodes .internal (l.attrs.map Attr.tlv) :=
      mem_keptCodes.2 ⟨a.tlv, List.mem_map_of_mem ha, rfl, congrArg AttrId.code hid⟩
    rw [if_pos hcode, List.append_nil, hall]
  | external =>
    have hcode : Numbered.code AttrType.localPref ∉
        keptCodes .external (l.attrs.map Attr.tlv) := by
      intro hm
      obtain ⟨t, -, hk, hc⟩ := mem_keptCodes.1 hm
      simp [isKept, hc] at hk
    have hpref : a.received context = defaultPreference context.defaultLocalPref :=
      if_pos ⟨hpeer, hid⟩
    have hperm := (h.perm_cons_filter ha hid).map (Attr.received context)
    rw [List.map_cons, hpref] at hperm
    rw [if_neg hcode]
    exact hperm.trans (List.perm_append_singleton _ _).symm

theorem decode_encode_of_mem (h : l.Deliverable) (context : Context)
    (hp : ∃ a ∈ l.attrs, a.id = AttrType.localPref.id) :
    decode context l.encode = .ok ⟨l.attrs.map (Attr.received context), true⟩ :=
  h.decode_eq (h.ascending_received context) (h.described_perm_received context hp)

/-- A list that ends before the place of a preference is given the one of the receiver. -/
theorem decode_encode_of_lt (h : l.Deliverable) (context : Context)
    (hlt : ∀ a ∈ l.attrs, a.id.number < AttrType.localPref.id.number) :
    decode context l.encode = .ok ⟨l.attrs.map (Attr.received context) ++
      [defaultPreference context.defaultLocalPref], true⟩ := by
  have hid : ∀ a ∈ l.attrs, a.id ≠ AttrType.localPref.id :=
    fun a ha he ↦ Nat.ne_of_lt (hlt a ha) (congrArg AttrId.number he)
  have hall : l.attrs.filter (fun a ↦ a.tlv.isKept context.peerType) = l.attrs := by
    apply List.filter_eq_self.2
    intro a ha
    exact (isKept_tlv (h.bgp a ha) _).2 (fun hc ↦ hid a ha hc.2)
  have hcode : Numbered.code AttrType.localPref ∉
      keptCodes context.peerType (l.attrs.map Attr.tlv) := by
    intro hm
    obtain ⟨t, ht, -, hc⟩ := mem_keptCodes.1 hm
    obtain ⟨a, ha, rfl⟩ := List.mem_map.1 ht
    exact hid a ha (Attr.id_eq_of_code (h.bgp a ha) hc)
  apply h.decode_eq
  · refine List.pairwise_append.2 ⟨h.ascending_received context, List.pairwise_singleton _ _, ?_⟩
    intro b hb c hc
    obtain ⟨a, ha, rfl⟩ := List.mem_map.1 hb
    rw [List.mem_singleton.1 hc, id_received]
    exact hlt a ha
  · rw [h.described_eq, hall, if_neg hcode]

end Deliverable

end AttrList

end PathAttributes
