import PathAttributes.Proofs.Section.Grammar

namespace PathAttributes

open Tlv

/-- The check that an attribute fails first, of those that are made one after the other, and the
error that is reported for it. -/
inductive Fails (peer : PeerType) (before : List Tlv) (t : Tlv) : UpdateError → Prop
  | repeated : t.code ∈ keptCodes peer before → Fails peer before t .malformedAttributeList
  | length {type : AttrType} : t.code ∉ keptCodes peer before → t.code = Numbered.code type →
      ¬type.HasLength t.value → Fails peer before t (.attributeLength t.octets)
  | category {type : AttrType} : t.code ∉ keptCodes peer before → t.code = Numbered.code type →
      type.HasLength t.value → t.flags &&& 0xC0 ≠ type.descriptor.flags.bits →
      Fails peer before t (.attributeFlags t.octets)
  | origin : t.code ∉ keptCodes peer before → t.code = Numbered.code AttrType.origin →
      AttrType.origin.HasLength t.value → t.flags &&& 0xC0 = AttrType.origin.descriptor.flags.bits →
      ¬AttrType.origin.Allows t.value → Fails peer before t (.invalidOrigin t.octets)
  | nextHop : t.code ∉ keptCodes peer before → t.code = Numbered.code AttrType.nextHop →
      AttrType.nextHop.HasLength t.value →
      t.flags &&& 0xC0 = AttrType.nextHop.descriptor.flags.bits →
      ¬AttrType.nextHop.Allows t.value → Fails peer before t (.invalidNextHop t.octets)
  | asPath : t.code ∉ keptCodes peer before → t.code = Numbered.code AttrType.asPath →
      AttrType.asPath.HasLength t.value → t.flags &&& 0xC0 = AttrType.asPath.descriptor.flags.bits →
      ¬AttrType.asPath.Allows t.value → Fails peer before t .malformedAsPath
  | unrecognized : t.code ∉ keptCodes peer before → AttrType.IsUnknown t.code →
      t.flags &&& 0x80 = 0 → Fails peer before t (.unrecognizedWellKnown t.octets)

def IsFirstMissing (ts : List Tlv) (type : AttrType) : Prop :=
  ∃ us vs, [AttrType.origin, .asPath, .nextHop] = us ++ type :: vs ∧
    (∀ u ∈ us, Numbered.code u ∈ ts.map code) ∧ Numbered.code type ∉ ts.map code

/-- What is wrong with the octets that follow attributes which are in order. -/
inductive Offence (peer : PeerType) (before : List Tlv) : Octets → UpdateError → Prop
  | missing {type : AttrType} : IsFirstMissing before type →
      Offence peer before [] (.missingWellKnown type)
  | cutShort {bs : Octets} : bs ≠ [] → (∀ (t : Tlv) rest, t.Fits → bs ≠ t.octets ++ rest) →
      Offence peer before bs .malformedAttributeList
  | failing {t : Tlv} {rest : Octets} {e : UpdateError} : t.Fits → Fails peer before t e →
      Offence peer before (t.octets ++ rest) e

theorem exists_firstMissing {peer : PeerType} (ts : List Tlv) :
    (∀ type ∈ [AttrType.origin, .asPath, .nextHop], Numbered.code type ∈ keptCodes peer ts) ∨
      ∃ type, IsFirstMissing ts type := by
  cases h : [AttrType.origin, .asPath, .nextHop].find?
      (fun type ↦ decide (Numbered.code type ∉ ts.map code)) with
  | none =>
    refine Or.inl (fun type hm ↦ (mem_keptCodes_iff_of_mandatory hm).2 ?_)
    simpa using List.find?_eq_none.1 h type hm
  | some type =>
    obtain ⟨hn, us, vs, he, hus⟩ := List.find?_eq_some_iff_append.1 h
    exact Or.inr ⟨type, us, vs, he, fun u hu ↦ by simpa using hus u hu, of_decide_eq_true hn⟩

variable {peer : PeerType} {before : List Tlv} {t : Tlv} {e : UpdateError}

theorem passes_or_fails (peer : PeerType) (before : List Tlv) (t : Tlv) :
    Passes peer before t ∨ ∃ e, Fails peer before t e := by
  by_cases hf : t.code ∈ keptCodes peer before
  · exact Or.inr ⟨_, .repeated hf⟩
  cases hc : (Numbered.ofCode? t.code : Option AttrType) with
  | none =>
    have hu : AttrType.IsUnknown t.code := (AttrType.ofCode?_eq_none_iff t.code).1 hc
    have hk (type : AttrType) : t.code ≠ Numbered.code type := by
      intro he
      rw [he, Numbered.ofCode?_code] at hc
      cases hc
    by_cases ho : t.flags &&& 0x80 = 0
    · exact Or.inr ⟨_, .unrecognized hf hu ho⟩
    · exact Or.inl ⟨hf, fun type he ↦ absurd he (hk type), fun type he ↦ absurd he (hk type),
        fun type he ↦ absurd he (hk type), fun _ ↦ ho⟩
  | some type =>
    have hk : t.code = Numbered.code type := (Numbered.code_eq_of_ofCode? hc).symm
    have hu : ¬AttrType.IsUnknown t.code := hk ▸ AttrType.not_isUnknown_code type
    have ht {type' : AttrType} (he : t.code = Numbered.code type') : type' = type :=
      Numbered.code_injective (he.symm.trans hk)
    by_cases hl : type.HasLength t.value
    · by_cases hg : t.flags &&& 0xC0 = type.descriptor.flags.bits
      · by_cases ha : type.Allows t.value
        · exact Or.inl ⟨hf, fun _ he ↦ ht he ▸ hl, fun _ he ↦ ht he ▸ hg, fun _ he ↦ ht he ▸ ha,
            fun h ↦ absurd h hu⟩
        · refine Or.inr ?_
          cases type with
          | origin => exact ⟨_, .origin hf hk hl hg ha⟩
          | asPath => exact ⟨_, .asPath hf hk hl hg ha⟩
          | nextHop => exact ⟨_, .nextHop hf hk hl hg ha⟩
          | multiExitDisc | localPref | atomicAggregate | aggregator => exact absurd trivial ha
      · exact Or.inr ⟨_, .category hf hk hl hg⟩
    · exact Or.inr ⟨_, .length hf hk hl⟩

theorem Fails.not_passes (h : Fails peer before t e) : ¬Passes peer before t := by
  rintro ⟨hf, hc⟩
  cases h with
  | repeated hm => exact hf hm
  | length _ hk hl => exact hl (hc.length _ hk)
  | category _ hk _ hg => exact hg (hc.category _ hk)
  | origin _ hk _ _ ha | nextHop _ hk _ _ ha | asPath _ hk _ _ ha => exact ha (hc.value _ hk)
  | unrecognized _ hu ho => exact hc.optional hu ho

/-- Attributes are in order, or one of them is the first that is not. -/
theorem accepted_or_fails {ts us : List Tlv} (h : Accepted peer ts) (hfits : ∀ u ∈ us, u.Fits) :
    Accepted peer (ts ++ us) ∨
      ∃ vs t ws e, us = vs ++ t :: ws ∧ Accepted peer (ts ++ vs) ∧ Fails peer (ts ++ vs) t e := by
  induction us generalizing ts with
  | nil => exact Or.inl (by rwa [List.append_nil])
  | cons u us ih =>
    have hu : u.Fits := hfits u List.mem_cons_self
    rcases passes_or_fails peer ts u with hp | ⟨e, he⟩
    · rw [List.append_cons]
      rcases ih (h.snoc hu hp) (fun v hv ↦ hfits v (List.mem_cons_of_mem u hv)) with
        ha | ⟨vs, t, ws, e, rfl, ha, he⟩
      · exact Or.inl ha
      · rw [← List.append_cons] at ha he
        exact Or.inr ⟨u :: vs, t, ws, e, rfl, ha, he⟩
    · exact Or.inr ⟨[], u, us, e, rfl, by rwa [List.append_nil], by rwa [List.append_nil]⟩

/-- Octets are a section that is taken, or an offence follows attributes which are in order. -/
theorem admissible_or_offence (peer : PeerType) (bs : Octets) :
    (∃ ts, bs = ts.flatMap octets ∧ Admissible peer ts) ∨
      ∃ ts rest e, bs = ts.flatMap octets ++ rest ∧ Accepted peer ts ∧ Offence peer ts rest e := by
  obtain ⟨hfits, hbs, hrest⟩ := split_spec bs
  have hnil : Accepted peer [] := .nil
  rcases accepted_or_fails hnil hfits with ha | ⟨vs, t, ws, e, hs, ha, he⟩
  · rw [List.nil_append] at ha
    cases hr : (split bs).2 with
    | nil =>
      rw [hr, List.append_nil] at hbs
      rcases exists_firstMissing (split bs).1 with hm | ⟨type, hm⟩
      · exact Or.inl ⟨_, hbs, hfits, ha.conforms, ha.distinct, hm⟩
      · exact Or.inr ⟨_, [], _, by rwa [List.append_nil], ha, .missing hm⟩
    | cons b rest =>
      rw [hr] at hbs hrest
      have hcut : Offence peer (split bs).1 (b :: rest) .malformedAttributeList :=
        .cutShort (List.cons_ne_nil b rest) (read?_eq_none_iff.1 hrest)
      exact Or.inr ⟨_, _, _, hbs, ha, hcut⟩
  · rw [hs, List.flatMap_append, List.flatMap_cons, List.append_assoc, List.append_assoc] at hbs
    have ht : t.Fits := hfits t (hs ▸ List.mem_append_right vs List.mem_cons_self)
    exact Or.inr ⟨vs, _, e, hbs, ha, .failing ht he⟩

theorem Offence.not_passes {bs rest : Octets} (h : Offence peer before bs e)
    (hr : read? bs = some (t, rest)) : ¬Passes peer before t := by
  obtain ⟨ht, he⟩ := read?_eq_some_iff.1 hr
  cases h with
  | missing => cases he
  | cutShort _ hn => exact absurd he (hn t rest ht)
  | failing hu hf =>
    rw [read?_octets_append hu] at hr
    cases hr
    exact hf.not_passes

end PathAttributes
