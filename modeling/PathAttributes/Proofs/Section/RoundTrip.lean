import Mathlib.Data.List.Perm.Basic
import PathAttributes.Proofs.Section.Acceptance
import PathAttributes.Proofs.Section.Kept

namespace PathAttributes

open Tlv

namespace AttrList

/-- The BGP attributes of a list are those of a route within an AS, each of the form that is laid
down for its code. -/
structure WireValid (l : AttrList) : Prop where
  distinct : ((l.retain .bgp).attrs.map Attr.id).Nodup
  present : ∀ type ∈ [AttrType.origin, .asPath, .nextHop, .localPref],
    ∃ a ∈ l.attrs, a.id = type.id
  wellFormed : ∀ a ∈ (l.retain .bgp).attrs, a.WellFormed

theorem mem_retain {l : AttrList} {ns : Namespace} {a : Attr} :
    a ∈ (l.retain ns).attrs ↔ a ∈ l.attrs ∧ a.id.ns = ns := by
  simp only [retain, List.mem_filter, decide_eq_true_eq]

theorem retain_eq_self {l : AttrList} {ns : Namespace} (h : ∀ a ∈ l.attrs, a.id.ns = ns) :
    l.retain ns = l := by
  have hf : l.attrs.filter (fun a ↦ a.id.ns = ns) = l.attrs :=
    List.filter_eq_self.2 (fun a ha ↦ decide_eq_true (h a ha))
  rw [retain, hf]

theorem encode_eq (l : AttrList) :
    l.encode = ((l.retain .bgp).attrs.map Attr.tlv).flatMap octets := by
  rw [encode, List.flatMap_map]
  simp only [Attr.octets_tlv]

theorem nodup_codes {attrs : List Attr} (hns : ∀ a ∈ attrs, a.id.ns = .bgp)
    (h : (attrs.map Attr.id).Nodup) : ((attrs.map Attr.tlv).map code).Nodup := by
  rw [List.map_map]
  refine List.pairwise_map.2 ((List.pairwise_map.1 h).imp_of_mem ?_)
  intro a b ha hb hne he
  have hcode : a.id.code = b.id.code := he
  refine hne ?_
  show (⟨a.id.ns, a.id.code⟩ : AttrId) = ⟨b.id.ns, b.id.code⟩
  rw [hns a ha, hns b hb, hcode]

/-- Attributes of distinct codes, each of the form that is laid down, make up a section that is
taken if none of the mandatory ones is missing. -/
theorem admissible_map_tlv {attrs : List Attr} (hns : ∀ a ∈ attrs, a.id.ns = .bgp)
    (hw : ∀ a ∈ attrs, a.WellFormed) (hd : (attrs.map Attr.id).Nodup)
    (hm : ∀ type ∈ [AttrType.origin, .asPath, .nextHop], ∃ a ∈ attrs, a.id = type.id)
    (peer : PeerType) : Admissible peer (attrs.map Attr.tlv) := by
  refine ⟨?_, ?_, ?_, ?_⟩
  · intro t ht
    obtain ⟨a, ha, rfl⟩ := List.mem_map.1 ht
    exact Attr.fits_tlv ((hw a ha).body_length_le (hns a ha))
  · intro t ht
    obtain ⟨a, ha, rfl⟩ := List.mem_map.1 ht
    exact (hw a ha).conforms_tlv (hns a ha)
  · exact (nodup_codes hns hd).sublist (List.filter_sublist.map code)
  · intro type hmem
    rw [mem_keptCodes_iff_of_mandatory hmem]
    obtain ⟨a, ha, hid⟩ := hm type hmem
    exact List.mem_map.2 ⟨a.tlv, List.mem_map_of_mem ha, congrArg AttrId.code hid⟩

namespace WireValid

variable {l : AttrList}

theorem admissible (h : l.WireValid) (peer : PeerType) :
    Admissible peer ((l.retain .bgp).attrs.map Attr.tlv) := by
  refine admissible_map_tlv (fun a ha ↦ (mem_retain.1 ha).2) h.wellFormed h.distinct ?_ peer
  intro type hm
  obtain ⟨a, ha, hid⟩ := h.present type (List.mem_append_left [AttrType.localPref] hm)
  exact ⟨a, mem_retain.2 ⟨ha, by rw [hid]; rfl⟩, hid⟩

/-- Within an AS what is sent describes the attributes it was made of. -/
theorem described_internal (h : l.WireValid) {context : Context}
    (hp : context.peerType = .internal) :
    described context ((l.retain .bgp).attrs.map Attr.tlv) =
      (l.retain .bgp).attrs.map Attr.sent := by
  have hkept : ∀ t : Tlv, t.isKept context.peerType = true := by
    intro t
    rw [isKept, hp]
    rfl
  have hall (ts : List Tlv) : ts.filter (isKept context.peerType) = ts :=
    List.filter_eq_self.2 (fun t _ ↦ hkept t)
  obtain ⟨a, ha, hid⟩ := h.present .localPref (by decide)
  have hmem : a ∈ (l.retain .bgp).attrs := mem_retain.2 ⟨ha, by rw [hid]; rfl⟩
  have hpref : Numbered.code AttrType.localPref ∈
      keptCodes context.peerType ((l.retain .bgp).attrs.map Attr.tlv) :=
    mem_keptCodes.2 ⟨a.tlv, List.mem_map_of_mem hmem, hkept _, congrArg AttrId.code hid⟩
  rw [described, if_pos hpref, hall, List.append_nil, List.map_map]
  refine List.map_congr_left (fun a ha ↦ ?_)
  exact (h.wellFormed a ha).attr_tlv (mem_retain.1 ha).2

end WireValid

variable {context : Context} {bs : Octets} {l : AttrList}

/-- The attributes of a list that was read are made of those that were sent, in order of codes. -/
theorem exists_perm_of_sorts {ts : List Tlv} (hs : l.Sorts (described context ts)) :
    ∃ us : List Tlv, l.attrs = us.map attr ∧ us.Perm (completed context ts) ∧
      us.Pairwise (fun t u ↦ t.code < u.code) := by
  have hperm := hs.perm
  rw [← map_attr_completed] at hperm
  have hcomp : Relation.Comp (fun as (us : List Tlv) ↦ as = us.map attr) List.Perm l.attrs
      (completed context ts) := by
    rw [List.eq_map_comp_perm]
    exact hperm
  obtain ⟨us, hus, hp⟩ := hcomp
  refine ⟨us, hus, hp, ?_⟩
  have ha := hs.ascending
  rw [hus] at ha
  refine (List.pairwise_map.1 ha).imp (fun {t u} hlt ↦ ?_)
  have hn : 256 * 1 + t.code.toNat < 256 * 1 + u.code.toNat := hlt
  rw [UInt8.lt_iff_toNat_lt]
  omega

theorem attrs_of_sorts {ts : List Tlv} (ha : Admissible context.peerType ts)
    (hs : l.Sorts (described context ts)) {a : Attr} (h : a ∈ l.attrs) :
    ∃ t : Tlv, t.Conforms ∧ t.Fits ∧ a = t.attr := by
  obtain ⟨us, hus, hp, -⟩ := exists_perm_of_sorts hs
  rw [hus] at h
  obtain ⟨t, ht, rfl⟩ := List.mem_map.1 h
  obtain ⟨hc, hf⟩ := mem_completed (fun t ht ↦ ⟨ha.conforms t ht, ha.complete t ht⟩) t
    (hp.mem_iff.1 ht)
  exact ⟨t, hc, hf, rfl⟩

theorem retain_of_sorts {ts : List Tlv} (ha : Admissible context.peerType ts)
    (hs : l.Sorts (described context ts)) : l.retain .bgp = l := by
  refine retain_eq_self (fun a h ↦ ?_)
  obtain ⟨t, -, -, rfl⟩ := attrs_of_sorts ha hs h
  rfl

theorem wireValid_of_sorts {ts : List Tlv} (ha : Admissible context.peerType ts)
    (hs : l.Sorts (described context ts)) : l.WireValid := by
  refine ⟨?_, ?_, ?_⟩
  · rw [retain_of_sorts ha hs]
    exact hs.ascending.nodup
  · intro type hm
    have hsplit : type ∈ [AttrType.origin, .asPath, .nextHop] ++ [AttrType.localPref] := hm
    have hcode : Numbered.code type ∈ (completed context ts).map code := by
      rcases List.mem_append.1 hsplit with hm | hm
      · exact code_mem_completed (ha.mandatory type hm)
      · rw [List.mem_singleton.1 hm]
        exact localPref_mem_completed context ts
    obtain ⟨t, ht, hc⟩ := List.mem_map.1 hcode
    have hattr : t.attr ∈ described context ts := by
      rw [← map_attr_completed]
      exact List.mem_map_of_mem ht
    exact ⟨t.attr, hs.perm.mem_iff.2 hattr, congrArg AttrId.bgp hc⟩
  · intro a h
    obtain ⟨t, hc, hf, rfl⟩ := attrs_of_sorts ha hs (mem_retain.1 h).1
    exact wellFormed_attr hc hf

/-- A list that was read is read again from what it is sent as. -/
theorem decode_encode_of_sorts {ts : List Tlv} (ha : Admissible context.peerType ts)
    (hs : l.Sorts (described context ts)) : decode context l.encode = .ok l := by
  have hin : ∀ t ∈ completed context ts, t.Conforms ∧ t.Fits :=
    mem_completed (fun t ht ↦ ⟨ha.conforms t ht, ha.complete t ht⟩)
  have hsent : (l.attrs.map Attr.tlv).Perm ((completed context ts).map kept) := by
    rw [← map_tlv_attr hin, map_attr_completed]
    exact hs.perm.map Attr.tlv
  have hadm := (wireValid_of_sorts ha hs).admissible context.peerType
  rw [retain_of_sorts ha hs] at hadm
  rw [encode_eq, retain_of_sorts ha hs]
  refine decode_of_sorts hadm ⟨hs.sorted, hs.ascending, hs.perm.trans ?_⟩
  calc (described context ts).Perm (described context ((completed context ts).map kept)) := by
        rw [described_map_kept hin, ← map_attr_completed context (completed context ts),
          completed_completed, map_attr_completed]
    (described context ((completed context ts).map kept)).Perm
        (described context (l.attrs.map Attr.tlv)) := described_perm hsent.symm

/-- What a list is sent as within an AS is read as the list in order of ids, and a list that was
read is sent in such a form and read again. -/
theorem decode_encode (context : Context) :
    (∀ l : AttrList, l.WireValid → context.peerType = .internal →
      ∃ m, decode context l.encode = .ok m ∧
        m.Sorts ((l.retain .bgp).attrs.map Attr.sent)) ∧
    (∀ bs l, decode context bs = .ok l → l.WireValid ∧ decode context l.encode = .ok l) := by
  constructor
  · intro l h hp
    obtain ⟨m, hm, hs⟩ := decode_of_admissible (h.admissible context.peerType)
    rw [h.described_internal hp] at hs
    rw [encode_eq]
    exact ⟨m, hm, hs⟩
  · intro bs l h
    obtain ⟨ts, -, ha, hs⟩ := exists_admissible_of_decode h
    exact ⟨wireValid_of_sorts ha hs, decode_encode_of_sorts ha hs⟩

/-- From a peer of another AS the preference that is sent is not the one that is kept. -/
theorem decode_encode_external :
    ∃ l : AttrList, l.WireValid ∧ decode ⟨.external, 100⟩ l.encode = .ok l ∧
      l.attrs = [⟨.bgp 1, ⟨0x40⟩, .int 0⟩, ⟨.bgp 2, ⟨0x50⟩, .asPath []⟩,
        ⟨.bgp 3, ⟨0x40⟩, .address ⟨0x0A000001⟩⟩, ⟨.bgp 5, ⟨0x80⟩, .int 100⟩] ∧
      ∃ m, decode ⟨.internal, 7⟩ l.encode = .ok m ∧
        m.Sorts ((l.retain .bgp).attrs.map Attr.sent) := by
  have h : decode ⟨.external, 100⟩ [0x80, 5, 4, 0, 0, 0, 9, 0x40, 3, 4, 10, 0, 0, 1,
      0x40, 1, 1, 0, 0x50, 2, 0, 0] =
        .ok ⟨[⟨.bgp 1, ⟨0x40⟩, .int 0⟩, ⟨.bgp 2, ⟨0x50⟩, .asPath []⟩,
          ⟨.bgp 3, ⟨0x40⟩, .address ⟨0x0A000001⟩⟩, ⟨.bgp 5, ⟨0x80⟩, .int 100⟩], true⟩ := by
    decide +kernel
  obtain ⟨hw, hd⟩ := (decode_encode ⟨.external, 100⟩).2 _ _ h
  exact ⟨_, hw, hd, rfl, (decode_encode ⟨.internal, 7⟩).1 _ hw rfl⟩

end AttrList

end PathAttributes
