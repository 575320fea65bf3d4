import PathAttributes.Proofs.AttrList.Ascending
import PathAttributes.Proofs.Section.Offence

namespace PathAttributes

open Tlv

namespace Ruling

variable {peer : PeerType} {type : AttrType} {t : Tlv}

theorem ofKnown_of_length (h : ¬type.HasLength t.value) :
    ofKnown peer type t = refused (.attributeLength t.octets) := by
  rw [AttrType.hasLength_iff, Bool.not_eq_false] at h
  rw [ofKnown, if_pos h]

theorem ofKnown_of_category (hl : type.HasLength t.value)
    (h : t.flags &&& 0xC0 ≠ type.descriptor.flags.bits) :
    ofKnown peer type t = refused (.attributeFlags t.octets) := by
  rw [AttrType.hasLength_iff] at hl
  rw [ne_eq, ← Flags.category_ofOctet_eq_iff] at h
  simp only [ofKnown, hl, Bool.false_eq_true, if_false, ne_eq, h, not_false_eq_true, if_true]

theorem ofKnown_of_flags (hl : type.HasLength t.value)
    (hg : t.flags &&& 0xC0 = type.descriptor.flags.bits) :
    ofKnown peer type t = match type.descriptor.validate peer t.value with
      | .ok () => retained ⟨type.id, Flags.ofOctet t.flags, type.sentValue t.value⟩
      | .error fault => faulty type fault := by
  rw [AttrType.hasLength_iff] at hl
  rw [← Flags.category_ofOctet_eq_iff] at hg
  cases hv : type.descriptor.validate peer t.value <;>
    simp only [ofKnown, hl, Bool.false_eq_true, if_false, ne_eq, hg, not_true_eq_false, hv,
      AttrType.value_descriptor_kind]

theorem ofUnknown_of_not_optional (h : t.flags &&& 0x80 = 0) :
    ofUnknown t = refused (.unrecognizedWellKnown t.octets) := by
  have hc : (Flags.ofOctet t.flags).contains .optionalBit = false := by
    rw [← Bool.not_eq_true, Flags.contains_optionalBit_ofOctet]
    exact fun hn ↦ hn h
  rw [ofUnknown, hc]
  rfl

theorem ofUnknown_of_optional (hu : AttrType.IsUnknown t.code) (h : t.flags &&& 0x80 ≠ 0) :
    ofUnknown t = retained t.attr := by
  have hc := (Flags.contains_optionalBit_ofOctet t.flags).2 h
  rw [attr_of_unknown hu]
  simp only [ofUnknown, hc, keptFlags, hu, true_and, Bool.not_true, Bool.false_eq_true, if_false,
    ← Flags.contains_transitiveBit_ofOctet]
  by_cases ht : (Flags.ofOctet t.flags).contains .transitiveBit = true
  · rw [if_pos ht, if_pos ht]
    rfl
  · rw [if_neg ht, if_neg ht]
    rfl

/-- An attribute that is in order is retained, or left out without a word. -/
theorem ofTlv_of_conforms {seen : List UInt8} (hf : t.code ∉ seen) (h : t.Conforms) :
    ofTlv peer seen t =
      if t.isKept peer then retained t.attr else faulty .localPref .discard := by
  cases hc : (Numbered.ofCode? t.code : Option AttrType) with
  | none =>
    have hu := (AttrType.ofCode?_eq_none_iff t.code).1 hc
    have hk : t.isKept peer = true := by
      have hne : t.code ≠ Numbered.code AttrType.localPref := by
        intro he
        rw [he] at hu
        exact absurd hu (by decide)
      simp [isKept, hne]
    rw [ofTlv, if_neg hf, hc, if_pos hk]
    exact ofUnknown_of_optional hu (h.optional hu)
  | some type =>
    have hk : t.code = Numbered.code type := (Numbered.code_eq_of_ofCode? hc).symm
    have hl := h.length type hk
    have hd : t.isKept peer = true ↔ ¬(peer = .external ∧ type = .localPref) := by
      rw [isKept, hk]
      cases peer <;> cases type <;> decide
    rw [ofTlv, if_neg hf, hc, attr_of_known hk]
    simp only [ofKnown_of_flags hl (h.category type hk),
      AttrType.validate_of_allows hl (h.value type hk), hd]
    by_cases hx : peer = .external ∧ type = .localPref
    · simp [hx]
    · simp [hx]

end Ruling

namespace AttrList

variable {peer : PeerType} {seen : List UInt8} {t : Tlv} {ts : List Tlv}

theorem retained_cons_of_conforms (hf : t.code ∉ seen) (h : t.Conforms) :
    retained peer seen (t :: ts) =
      if t.isKept peer then (retained peer (t.code :: seen) ts).map (t.attr :: ·)
      else retained peer seen ts := by
  rw [retained, Ruling.ofTlv_of_conforms hf h]
  cases t.isKept peer <;> rfl

theorem retained_cons_of_refused {e : UpdateError} (h : Ruling.ofTlv peer seen t = .refused e) :
    retained peer seen (t :: ts) = .error e := by
  rw [retained, h]

theorem retained_cons_of_faulty {type : AttrType} {fault : AttrFault} {e : UpdateError}
    (h : Ruling.ofTlv peer seen t = .faulty type fault)
    (he : fault.updateError? t.octets = some e) : retained peer seen (t :: ts) = .error e := by
  rw [retained, h]
  simp only [he]

/-- The error of the check that fails first is the one that is reported. -/
theorem retained_cons_of_fails {before : List Tlv} {e : UpdateError}
    (hs : ∀ c, c ∈ seen ↔ c ∈ keptCodes peer before) (h : Fails peer before t e) :
    retained peer seen (t :: ts) = .error e := by
  have hknown (type : AttrType) (hf : t.code ∉ keptCodes peer before)
      (hk : t.code = Numbered.code type) :
      Ruling.ofTlv peer seen t = Ruling.ofKnown peer type t := by
    rw [Ruling.ofTlv, if_neg (fun hm ↦ hf ((hs _).1 hm)), hk, Numbered.ofCode?_code]
  cases h with
  | repeated hm => exact retained_cons_of_refused (by rw [Ruling.ofTlv, if_pos ((hs _).2 hm)])
  | @length type hf hk hl =>
    exact retained_cons_of_refused ((hknown type hf hk).trans (Ruling.ofKnown_of_length hl))
  | @category type hf hk hl hg =>
    exact retained_cons_of_refused ((hknown type hf hk).trans (Ruling.ofKnown_of_category hl hg))
  | origin hf hk hl hg ha =>
    have hv := (AttrType.validate_origin peer hl).2 ha
    exact retained_cons_of_faulty
      ((hknown _ hf hk).trans (by rw [Ruling.ofKnown_of_flags hl hg, hv])) rfl
  | nextHop hf hk hl hg ha =>
    have hv := (AttrType.validate_nextHop peer hl).2 ha
    exact retained_cons_of_faulty
      ((hknown _ hf hk).trans (by rw [Ruling.ofKnown_of_flags hl hg, hv])) rfl
  | asPath hf hk hl hg ha =>
    have hv := (AttrType.validate_asPath peer t.value).2 ha
    exact retained_cons_of_faulty
      ((hknown _ hf hk).trans (by rw [Ruling.ofKnown_of_flags hl hg, hv])) rfl
  | unrecognized hf hu ho =>
    refine retained_cons_of_refused ?_
    rw [Ruling.ofTlv, if_neg (fun hm ↦ hf ((hs _).1 hm)), (AttrType.ofCode?_eq_none_iff _).2 hu]
    exact Ruling.ofUnknown_of_not_optional ho

/-- Attributes that are in order are retained one by one, whatever follows them. -/
theorem retained_append (h : Accepted peer ts) (us : List Tlv) :
    retained peer [] (ts ++ us) =
      (retained peer (keptCodes peer ts).reverse us).map
        ((ts.filter (isKept peer)).map attr ++ ·) := by
  induction h generalizing us with
  | nil =>
    show retained peer [] us = (retained peer [] us).map (fun as ↦ as)
    cases retained peer [] us <;> rfl
  | @snoc ts t h ht hp ih =>
    have hf : t.code ∉ (keptCodes peer ts).reverse := fun hm ↦ hp.fresh (List.mem_reverse.1 hm)
    rw [← List.append_cons, ih, retained_cons_of_conforms hf hp.conforms, keptCodes_append,
      keptCodes_singleton, List.filter_append, filter_isKept_singleton]
    cases t.isKept peer with
    | false => simp
    | true =>
      simp only [if_true, List.reverse_append, List.reverse_singleton, List.singleton_append,
        List.map_append, List.map_singleton, List.append_assoc]
      cases retained peer (t.code :: (keptCodes peer ts).reverse) us <;> rfl

theorem retained_of_accepted (h : Accepted peer ts) :
    retained peer [] ts = .ok ((ts.filter (isKept peer)).map attr) := by
  have hs := retained_append h []
  rw [List.append_nil] at hs
  rw [hs, retained]
  exact congrArg Except.ok (List.append_nil _)

theorem holds_iff (ts : List Tlv) (type : AttrType) :
    holds ((ts.filter (isKept peer)).map attr) type = true ↔
      Numbered.code type ∈ keptCodes peer ts := by
  have hid (t : Tlv) : t.attr.id = type.id ↔ t.code = Numbered.code type :=
    ⟨fun h ↦ congrArg AttrId.code h, fun h ↦ congrArg AttrId.bgp h⟩
  simp only [holds, List.any_map, List.any_eq_true, List.mem_filter, Function.comp_apply,
    decide_eq_true_eq, hid, mem_keptCodes, and_assoc]

theorem nodup_described {context : Context} (h : (keptCodes context.peerType ts).Nodup) :
    ((described context ts).map Attr.id).Nodup := by
  have hids : ((ts.filter (isKept context.peerType)).map attr).map Attr.id =
      (keptCodes context.peerType ts).map AttrId.bgp := by
    simp only [keptCodes, List.map_map]
    rfl
  have hinj : ∀ c d, c ≠ d → AttrId.bgp c ≠ AttrId.bgp d :=
    fun c d hne he ↦ hne (congrArg AttrId.code he)
  have hkept : ((keptCodes context.peerType ts).map AttrId.bgp).Nodup :=
    List.Pairwise.map AttrId.bgp hinj h
  rw [described, List.map_append, hids]
  split
  · simpa only [List.map_nil, List.append_nil] using hkept
  · rename_i hp
    refine List.nodup_append.2 ⟨hkept, List.nodup_cons.2 ⟨List.not_mem_nil, List.nodup_nil⟩, ?_⟩
    intro i hi j hj he
    obtain ⟨c, hc, rfl⟩ := List.mem_map.1 hi
    rw [List.map_singleton, List.mem_singleton] at hj
    have hc' : c = Numbered.code AttrType.localPref := congrArg AttrId.code (he.trans hj)
    exact hp (hc' ▸ hc)

variable {context : Context}

theorem decode_eq (context : Context) (bs : Octets) :
    decode context bs =
      match retained context.peerType [] (split bs).1 with
      | .ok attrs =>
        if (split bs).2.isEmpty then complete context attrs else .error .malformedAttributeList
      | .error e => .error e := by
  rw [decode]
  cases retained context.peerType [] (split bs).1 <;> rfl

theorem complete_described (ts : List Tlv)
    (h : ∀ type ∈ [AttrType.origin, .asPath, .nextHop],
      Numbered.code type ∈ keptCodes context.peerType ts) :
    complete context ((ts.filter (isKept context.peerType)).map attr) =
      .ok (ofList (described context ts)).sort := by
  have hn : AttrType.mandatory.find?
      (fun type ↦ !holds ((ts.filter (isKept context.peerType)).map attr) type) = none := by
    refine List.find?_eq_none.2 (fun type hm ↦ ?_)
    rw [(holds_iff ts type).2 (h type hm)]
    decide
  have hp := @holds_iff context.peerType ts .localPref
  rw [complete, hn, described]
  simp only [hp]
  split
  · rw [List.append_nil]
  · rfl

/-- Every section whose attributes are in order is taken, for the list that it describes. -/
theorem decode_of_admissible {ts : List Tlv} (h : Admissible context.peerType ts) :
    ∃ l, decode context (ts.flatMap octets) = .ok l ∧ l.Sorts (described context ts) := by
  have ha : Accepted context.peerType ts := accepted_iff.2 ⟨h.complete, h.conforms, h.distinct⟩
  refine ⟨(ofList (described context ts)).sort, ?_, sort_sorts (nodup_described h.distinct)⟩
  rw [decode_eq, split_flatMap h.complete]
  simp only [retained_of_accepted ha, List.isEmpty_nil, if_true]
  exact complete_described ts h.mandatory

theorem complete_of_firstMissing {ts : List Tlv} {type : AttrType} (h : IsFirstMissing ts type) :
    complete context ((ts.filter (isKept context.peerType)).map attr) =
      .error (.missingWellKnown type) := by
  obtain ⟨us, vs, he, hus, hn⟩ := h
  have hmem {u : AttrType} (hu : u ∈ us ++ type :: vs) :
      holds ((ts.filter (isKept context.peerType)).map attr) u = true ↔
        Numbered.code u ∈ ts.map code := by
    rw [holds_iff, mem_keptCodes_iff_of_mandatory (he ▸ hu)]
  have hs : AttrType.mandatory.find?
      (fun type ↦ !holds ((ts.filter (isKept context.peerType)).map attr) type) = some type := by
    refine List.find?_eq_some_iff_append.2 ⟨?_, us, vs, he, fun u hu ↦ ?_⟩
    · rw [Bool.not_eq_true', Bool.eq_false_iff]
      exact fun hh ↦ hn ((hmem (List.mem_append_right us List.mem_cons_self)).1 hh)
    · rw [(hmem (List.mem_append_left _ hu)).2 (hus u hu)]
      rfl
  rw [complete, hs]

/-- What is wrong behind attributes that are in order is what is reported. -/
theorem decode_of_offence {ts : List Tlv} {rest : Octets} {e : UpdateError}
    (h : Accepted context.peerType ts) (ho : Offence context.peerType ts rest e) :
    decode context (ts.flatMap octets ++ rest) = .error e := by
  rw [decode_eq, split_flatMap_append h.fits]
  cases ho with
  | missing hm =>
    simp only [split_nil, List.append_nil, retained_of_accepted h, List.isEmpty_nil, if_true]
    exact complete_of_firstMissing hm
  | cutShort hne hn =>
    have hempty : rest.isEmpty = false := by simpa using hne
    simp only [split_of_read?_none (read?_eq_none_iff.2 hn), List.append_nil,
      retained_of_accepted h, hempty, Bool.false_eq_true, if_false]
  | @failing t rest e ht hf =>
    have he : retained context.peerType (keptCodes context.peerType ts).reverse
        (t :: (split rest).1) = .error e :=
      retained_cons_of_fails (fun c ↦ List.mem_reverse) hf
    rw [split_of_read? (read?_octets_append ht rest), retained_append h, he]
    rfl

end AttrList

end PathAttributes
