import PathAttributes.Proofs.Section.RoundTrip

namespace PathAttributes

open Tlv

namespace Tlv

/-- What is sent again of an attribute: its octets with other flags. -/
def resent (t : Tlv) : Octets := t.keptFlags :: t.octets.tail

theorem octets_kept (t : Tlv) : t.kept.octets = t.resent := by
  have hw : lengthWidth t.keptFlags = lengthWidth t.flags := by
    rw [lengthWidth_eq, lengthWidth_eq, t.keptFlags_and (by decide)]
  show t.keptFlags :: t.code :: (Octets.ofNat (lengthWidth t.keptFlags) t.value.length ++ t.value) =
    t.keptFlags :: t.octets.tail
  rw [hw]
  rfl

theorem resent_eq_octets {t : Tlv} (hl : t.flags &&& 0x0F = 0)
    (hp : AttrType.IsUnknown t.code → t.flags &&& 0x40 ≠ 0 → t.flags &&& 0x20 ≠ 0) :
    t.resent = t.octets := by
  rw [resent, keptFlags_eq_self hl hp]
  rfl

theorem resent_preferenceTlv (n : UInt32) :
    (preferenceTlv n).resent = [0x80, 5, 4] ++ Octets.ofNat 4 n.toNat := by
  have hu : ¬AttrType.IsUnknown (preferenceTlv n).code := AttrType.not_isUnknown_code .localPref
  have hl : (preferenceTlv n).flags &&& 0x0F = 0 := by
    show (0x80 : UInt8) &&& 0x0F = 0
    decide
  have hw : lengthWidth 0x80 = 1 := by decide
  have hn : Octets.ofNat 1 4 = [4] := by decide
  rw [resent_eq_octets hl (fun h ↦ absurd h hu), preferenceTlv, octets, hw, Octets.length_ofNat, hn]
  rfl

end Tlv

namespace AttrList

variable {context : Context} {l : AttrList}

theorem completed_internal (hp : context.peerType = .internal) (ts : List Tlv) :
    completed context ts =
      ts ++ if Numbered.code AttrType.localPref ∈ ts.map code then []
        else [preferenceTlv context.defaultLocalPref] := by
  have hall : ts.filter (isKept context.peerType) = ts :=
    List.filter_eq_self.2 (fun t _ ↦ by rw [isKept, hp]; rfl)
  rw [completed, keptCodes, hall]

theorem encode_of_eq_map {us : List Tlv} (h : l.attrs = us.map attr)
    (hin : ∀ t ∈ us, t.Conforms ∧ t.Fits) : l.encode = us.flatMap resent := by
  have hbgp : ∀ a ∈ l.attrs, a.id.ns = .bgp := by
    intro a ha
    rw [h] at ha
    obtain ⟨t, -, rfl⟩ := List.mem_map.1 ha
    rfl
  rw [encode_eq, retain_eq_self hbgp, h, map_tlv_attr hin, List.flatMap_map]
  simp only [octets_kept]

/-- A section in order of codes, with a preference and with flags as they are kept, is sent as it
was read. -/
theorem encode_of_ordered {ts us : List Tlv} (hus : l.encode = us.flatMap resent)
    (hperm : us.Perm ts) (hasc : us.Pairwise (fun t u ↦ t.code < u.code))
    (hts : ts.Pairwise (fun t u ↦ t.code < u.code)) (hlow : ∀ t ∈ ts, t.flags &&& 0x0F = 0)
    (hpart : ∀ t ∈ ts, AttrType.IsUnknown t.code → t.flags &&& 0x40 ≠ 0 → t.flags &&& 0x20 ≠ 0) :
    l.encode = ts.flatMap octets := by
  have heq : us = ts :=
    hperm.eq_of_pairwise (fun t u _ _ hlt hgt ↦ absurd hgt (Nat.lt_asymm hlt)) hasc hts
  have hsame : ∀ t ∈ ts, t.resent = t.octets := fun t ht ↦
    resent_eq_octets (hlow t ht) (hpart t ht)
  rw [hus, heq, List.flatMap_def, List.flatMap_def, List.map_congr_left hsame]

/-- A section that was read from a peer of the same AS is sent again with its attributes in order
of codes, each of them octet for octet save for its flags. -/
theorem encode_decode (context : Context) (hp : context.peerType = .internal) (bs : Octets)
    (l : AttrList) (h : decode context bs = .ok l) :
    (∃ ts us : List Tlv, (∀ t ∈ ts, t.Fits) ∧ bs = ts.flatMap octets ∧
      us.Perm (ts ++ if Numbered.code AttrType.localPref ∈ ts.map code then []
        else [preferenceTlv context.defaultLocalPref]) ∧
      us.Pairwise (fun t u ↦ t.code < u.code) ∧ l.encode = us.flatMap resent) ∧
    (preferenceTlv context.defaultLocalPref).resent =
      [0x80, 5, 4] ++ Octets.ofNat 4 context.defaultLocalPref.toNat ∧
    (∀ ts : List Tlv, (∀ t ∈ ts, t.Fits) → bs = ts.flatMap octets →
      ts.Pairwise (fun t u ↦ t.code < u.code) → Numbered.code AttrType.localPref ∈ ts.map code →
      (∀ t ∈ ts, t.flags &&& 0x0F = 0) →
      (∀ t ∈ ts, AttrType.IsUnknown t.code → t.flags &&& 0x40 ≠ 0 → t.flags &&& 0x20 ≠ 0) →
      l.encode = bs) := by
  obtain ⟨ts, rfl, ha, hs⟩ := exists_admissible_of_decode h
  obtain ⟨us, hus, hperm, hasc⟩ := exists_perm_of_sorts hs
  have hin : ∀ t ∈ us, t.Conforms ∧ t.Fits := fun t ht ↦
    mem_completed (fun t ht ↦ ⟨ha.conforms t ht, ha.complete t ht⟩) t (hperm.mem_iff.1 ht)
  have henc := encode_of_eq_map hus hin
  rw [completed_internal hp] at hperm
  refine ⟨⟨ts, us, ha.complete, rfl, hperm, hasc, henc⟩, resent_preferenceTlv _, ?_⟩
  intro vs hvs he hord hpref hlow hpart
  rw [← flatMap_octets_inj ha.complete hvs he] at hord hpref hlow hpart
  rw [if_pos hpref, List.append_nil] at hperm
  exact encode_of_ordered henc hperm hasc hord hlow hpart

/-- The unknown attribute comes last and is marked as partial, behind the preference. -/
theorem encode_decode_out_of_order :
    ∃ l : AttrList, decode ⟨.internal, 100⟩ [0x4F, 3, 4, 10, 0, 0, 1, 0xC0, 99, 1, 7,
        0x40, 1, 1, 0, 0x50, 2, 0, 0] = .ok l ∧
      l.encode = [0x40, 1, 1, 0, 0x50, 2, 0, 0, 0x40, 3, 4, 10, 0, 0, 1,
        0x80, 5, 4, 0, 0, 0, 100, 0xE0, 99, 1, 7] ∧
      ∃ us : List Tlv, us.Pairwise (fun t u ↦ t.code < u.code) ∧ l.encode = us.flatMap resent := by
  have h : decode ⟨.internal, 100⟩ [0x4F, 3, 4, 10, 0, 0, 1, 0xC0, 99, 1, 7,
      0x40, 1, 1, 0, 0x50, 2, 0, 0] =
        .ok ⟨[⟨.bgp 1, ⟨0x40⟩, .int 0⟩, ⟨.bgp 2, ⟨0x50⟩, .asPath []⟩,
          ⟨.bgp 3, ⟨0x40⟩, .address ⟨0x0A000001⟩⟩, ⟨.bgp 5, ⟨0x80⟩, .int 100⟩,
          ⟨.bgp 99, ⟨0xE0⟩, .raw [7]⟩], true⟩ := by
    decide +kernel
  obtain ⟨⟨ts, us, -, -, -, hasc, henc⟩, -⟩ := encode_decode ⟨.internal, 100⟩ rfl _ _ h
  exact ⟨_, h, by decide +kernel, us, hasc, henc⟩

end AttrList

end PathAttributes
