import PathAttributes.Proofs.Section.Wire

namespace PathAttributes

namespace AttrType

theorem eq_of_ofNat_toNat {v w : Octets} (hl : v.length = w.length) (hw : w.length ≤ 4)
    (h : UInt32.ofNat (Octets.toNat v) = UInt32.ofNat (Octets.toNat w)) : v = w := by
  have hc : Octets.count w.length ≤ 2 ^ 32 := by
    match w.length, hw with
    | 0, _ | 1, _ | 2, _ | 3, _ | 4, _ => decide
  have hlt : Octets.toNat w < 2 ^ 32 := Nat.lt_of_lt_of_le (Octets.toNat_lt w) hc
  have hlt' : Octets.toNat v < 2 ^ 32 := Nat.lt_of_lt_of_le (hl ▸ Octets.toNat_lt v) hc
  have hn : Octets.toNat v = Octets.toNat w := by
    have := congrArg UInt32.toNat h
    rwa [UInt32.toNat_ofNat_of_lt' hlt', UInt32.toNat_ofNat_of_lt' hlt] at this
  have hv := Octets.ofNat_toNat v
  rw [hn, hl, Octets.ofNat_toNat] at hv
  exact hv.symm

/-- Nothing of a value of the length that is laid down is forgotten. -/
theorem sentValue_inj {type : AttrType} {v w : Octets} (hv : type.HasLength v)
    (hw : type.HasLength w) (h : type.sentValue v = type.sentValue w) : v = w := by
  cases type with
  | origin =>
    have hle : w.length ≤ 4 := Nat.le_trans (Nat.le_of_eq (hw 1 rfl)) (by decide)
    exact eq_of_ofNat_toNat ((hv 1 rfl).trans (hw 1 rfl).symm) hle
      (Value.int.inj h)
  | multiExitDisc | localPref =>
    exact eq_of_ofNat_toNat ((hv 4 rfl).trans (hw 4 rfl).symm) (Nat.le_of_eq (hw 4 rfl))
      (Value.int.inj h)
  | nextHop =>
    exact eq_of_ofNat_toNat ((hv 4 rfl).trans (hw 4 rfl).symm) (Nat.le_of_eq (hw 4 rfl))
      (congrArg Ipv4.bits (Value.address.inj h))
  | asPath => exact Value.asPath.inj h
  | atomicAggregate | aggregator => exact Value.raw.inj h

end AttrType

namespace Tlv

variable {t : Tlv}

theorem keptFlags_and (t : Tlv) {m : UInt8} (hm : 0xD0 &&& m = m) :
    t.keptFlags &&& m = t.flags &&& m := by
  have hpart : ∀ b : UInt8, (b &&& 0xF0 ||| 0x20) &&& 0xD0 = b &&& 0xD0 :=
    forall_octet (by decide +kernel)
  have hplain : ∀ b : UInt8, (b &&& 0xF0) &&& 0xD0 = b &&& 0xD0 :=
    forall_octet (by decide +kernel)
  have h : t.keptFlags &&& 0xD0 = t.flags &&& 0xD0 := by
    rw [keptFlags]
    split
    · exact hpart t.flags
    · exact hplain t.flags
  rw [← hm, ← UInt8.and_assoc, h, UInt8.and_assoc]

theorem keptFlags_low (t : Tlv) : t.keptFlags &&& 0x0F = 0 := by
  have hpart : ∀ b : UInt8, (b &&& 0xF0 ||| 0x20) &&& 0x0F = 0 := forall_octet (by decide +kernel)
  have hplain : ∀ b : UInt8, (b &&& 0xF0) &&& 0x0F = 0 := forall_octet (by decide +kernel)
  rw [keptFlags]
  split
  · exact hpart t.flags
  · exact hplain t.flags

theorem keptFlags_partial (hu : AttrType.IsUnknown t.code) (ht : t.flags &&& 0x40 ≠ 0) :
    t.keptFlags &&& 0x20 ≠ 0 := by
  have hpart : ∀ b : UInt8, (b &&& 0xF0 ||| 0x20) &&& 0x20 ≠ 0 := forall_octet (by decide +kernel)
  rw [keptFlags, if_pos ⟨hu, ht⟩]
  exact hpart t.flags

theorem length_le_of_fits (h : t.Fits) : t.value.length ≤ Blob.limit := by
  have hlt : t.value.length < Octets.count (lengthWidth t.flags) := h
  rw [lengthWidth_eq] at hlt
  split at hlt
  · exact Nat.le_of_lt_succ hlt
  · exact Nat.le_of_lt_succ (Nat.lt_of_lt_of_le hlt (by decide))

theorem extended_of_fits (h : t.Fits) (hl : 255 < t.value.length) : t.flags &&& 0x10 ≠ 0 := by
  have hlt : t.value.length < Octets.count (lengthWidth t.flags) := h
  rw [lengthWidth_eq] at hlt
  intro hn
  rw [if_neg (fun hne ↦ hne hn)] at hlt
  exact absurd hl (Nat.not_lt_of_le (Nat.le_of_lt_succ hlt))

/-- What was sent in order makes an attribute of the form that is laid down. -/
theorem wellFormed_attr (hc : t.Conforms) (hf : t.Fits) : t.attr.WellFormed := by
  refine ⟨t.keptFlags_low, ?_, ?_, ?_, ?_, ?_⟩
  · exact fun type hk ↦ (t.keptFlags_and (by decide)).trans (hc.category type hk)
  · intro type hk
    rw [attr_of_known hk]
    exact AttrType.keeps_sentValue (hc.length type hk) (hc.value type hk) (length_le_of_fits hf)
  · intro hu
    show t.keptFlags &&& 0x80 ≠ 0
    rw [t.keptFlags_and (by decide)]
    exact hc.optional hu
  · intro hu ht
    refine keptFlags_partial hu ?_
    rw [← t.keptFlags_and (by decide)]
    exact ht
  · intro hu
    rw [attr_of_unknown hu]
    exact ⟨t.value, rfl, length_le_of_fits hf⟩

theorem body_attr (hc : t.Conforms) (hf : t.Fits) : t.attr.body = t.value := by
  cases hk : (Numbered.ofCode? t.code : Option AttrType) with
  | none =>
    rw [attr_of_unknown ((AttrType.ofCode?_eq_none_iff _).1 hk)]
    exact Attr.body_raw rfl
  | some type =>
    have hcode : t.code = Numbered.code type := (Numbered.code_eq_of_ofCode? hk).symm
    have ha : t.attr.Agrees type := (wellFormed_attr hc hf).agrees rfl hcode
    have hv : t.attr.value = type.sentValue t.value := by rw [attr_of_known hcode]
    exact AttrType.sentValue_inj ha.length (hc.length type hcode) (ha.value.trans hv)

theorem wireFlags_attr (hc : t.Conforms) (hf : t.Fits) : t.attr.wireFlags = t.attr.flags := by
  have hext : ∀ b : UInt8, b &&& 0x10 ≠ 0 → b ||| 0x10 = b := forall_octet (by decide +kernel)
  rw [Attr.wireFlags, body_attr hc hf]
  split
  · rename_i hl
    refine Flags.ext (hext t.keptFlags ?_)
    rw [t.keptFlags_and (by decide)]
    exact extended_of_fits hf hl
  · rfl

theorem sent_attr (hc : t.Conforms) (hf : t.Fits) : t.attr.sent = t.attr := by
  rw [Attr.sent_eq, wireFlags_attr hc hf]

def kept (t : Tlv) : Tlv := { t with flags := t.keptFlags }

/-- What was sent in order is sent again with the flags that were kept. -/
theorem tlv_attr (hc : t.Conforms) (hf : t.Fits) : t.attr.tlv = t.kept := by
  rw [Attr.tlv, wireFlags_attr hc hf, body_attr hc hf]
  rfl

theorem attr_kept (hc : t.Conforms) (hf : t.Fits) : t.kept.attr = t.attr := by
  rw [← tlv_attr hc hf, (wellFormed_attr hc hf).attr_tlv rfl, sent_attr hc hf]

theorem map_tlv_attr {ts : List Tlv} (h : ∀ t ∈ ts, t.Conforms ∧ t.Fits) :
    (ts.map attr).map Attr.tlv = ts.map kept := by
  rw [List.map_map]
  exact List.map_congr_left (fun t ht ↦ tlv_attr (h t ht).1 (h t ht).2)

end Tlv

open Tlv

def preferenceTlv (n : UInt32) : Tlv := ⟨0x80, 5, Octets.ofNat 4 n.toNat⟩

theorem attr_preferenceTlv (n : UInt32) : (preferenceTlv n).attr = defaultPreference n := by
  have hf : Flags.ofOctet 0x80 = ⟨0x80⟩ := by decide
  rw [@attr_of_known _ .localPref rfl, defaultPreference, preferenceTlv, AttrType.sentValue,
    Attr.ofNat_toNat_four, hf]
  rfl

theorem fits_preferenceTlv (n : UInt32) : (preferenceTlv n).Fits := by
  show (Octets.ofNat 4 n.toNat).length < Octets.count (lengthWidth 0x80)
  rw [Octets.length_ofNat]
  decide

theorem conforms_preferenceTlv (n : UInt32) : (preferenceTlv n).Conforms := by
  have ht {type : AttrType} (h : (preferenceTlv n).code = Numbered.code type) :
      .localPref = type := Numbered.code_injective h
  refine ⟨?_, ?_, ?_, ?_⟩
  · intro type h m hm
    rw [← ht h] at hm
    cases hm
    exact Octets.length_ofNat 4 _
  · intro type h
    have hf : (0x80 : UInt8) &&& 0xC0 = Flags.optionalBit.bits := by decide
    rw [← ht h]
    exact hf
  · intro type h
    rw [← ht h]
    exact trivial
  · exact fun h ↦ absurd h (AttrType.not_isUnknown_code .localPref)

def completed (context : Context) (ts : List Tlv) : List Tlv :=
  ts.filter (isKept context.peerType) ++
    if Numbered.code AttrType.localPref ∈ keptCodes context.peerType ts then []
    else [preferenceTlv context.defaultLocalPref]

theorem map_attr_completed (context : Context) (ts : List Tlv) :
    (completed context ts).map attr = described context ts := by
  rw [completed, described, List.map_append]
  split
  · rfl
  · rw [List.map_singleton, attr_preferenceTlv]

theorem described_perm {context : Context} {ts us : List Tlv} (h : ts.Perm us) :
    (described context ts).Perm (described context us) := by
  have hf := h.filter (isKept context.peerType)
  have hm : Numbered.code AttrType.localPref ∈ keptCodes context.peerType ts ↔
      Numbered.code AttrType.localPref ∈ keptCodes context.peerType us := (hf.map code).mem_iff
  rw [described, described]
  simp only [hm]
  exact (hf.map attr).append_right _

theorem described_map_kept {context : Context} {ts : List Tlv}
    (h : ∀ t ∈ ts, t.Conforms ∧ t.Fits) :
    described context (ts.map kept) = described context ts := by
  have hf : (ts.map kept).filter (isKept context.peerType) =
      (ts.filter (isKept context.peerType)).map kept := List.filter_map
  have hc : keptCodes context.peerType (ts.map kept) = keptCodes context.peerType ts := by
    rw [keptCodes, hf, List.map_map]
    rfl
  have ha : ((ts.filter (isKept context.peerType)).map kept).map attr =
      (ts.filter (isKept context.peerType)).map attr := by
    rw [List.map_map]
    refine List.map_congr_left (fun t ht ↦ ?_)
    have hin := h t (List.mem_filter.1 ht).1
    exact attr_kept hin.1 hin.2
  rw [described, described, hc, hf, ha]

/-- What was completed is not changed by being completed. -/
theorem completed_completed (context : Context) (ts : List Tlv) :
    completed context (completed context ts) = completed context ts := by
  have hfilter (us : List Tlv) : (us.filter (isKept context.peerType)).filter
      (isKept context.peerType) = us.filter (isKept context.peerType) := by
    simp only [List.filter_filter, Bool.and_self]
  have hcodes : keptCodes context.peerType (ts.filter (isKept context.peerType)) =
      keptCodes context.peerType ts := congrArg (List.map code) (hfilter ts)
  by_cases hp : Numbered.code AttrType.localPref ∈ keptCodes context.peerType ts
  · simp only [completed, if_pos hp, List.append_nil, hfilter, hcodes]
  · simp only [completed, if_neg hp, List.filter_append, hfilter, keptCodes_append, hcodes,
      filter_isKept_singleton, keptCodes_singleton]
    cases (preferenceTlv context.defaultLocalPref).isKept context.peerType with
    | false => simp [hp]
    | true => simp [preferenceTlv, Numbered.code]

theorem code_mem_completed {context : Context} {ts : List Tlv} {c : UInt8}
    (h : c ∈ keptCodes context.peerType ts) : c ∈ (completed context ts).map code := by
  rw [completed, List.map_append]
  exact List.mem_append_left _ h

theorem localPref_mem_completed (context : Context) (ts : List Tlv) :
    Numbered.code AttrType.localPref ∈ (completed context ts).map code := by
  by_cases hp : Numbered.code AttrType.localPref ∈ keptCodes context.peerType ts
  · exact code_mem_completed hp
  · rw [completed, if_neg hp, List.map_append]
    exact List.mem_append_right _ (List.mem_singleton.2 rfl)

theorem mem_completed {context : Context} {ts : List Tlv}
    (h : ∀ t ∈ ts, t.Conforms ∧ t.Fits) : ∀ t ∈ completed context ts, t.Conforms ∧ t.Fits := by
  intro t ht
  rcases List.mem_append.1 ht with ht | ht
  · exact h t (List.mem_filter.1 ht).1
  · split at ht
    · cases ht
    · rw [List.mem_singleton.1 ht]
      exact ⟨conforms_preferenceTlv _, fits_preferenceTlv _⟩

end PathAttributes
