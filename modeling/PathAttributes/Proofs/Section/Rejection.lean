import PathAttributes.Proofs.Section.Reading

namespace PathAttributes

open Tlv

variable {peer : PeerType} {before : List Tlv} {bs : Octets} {e : UpdateError}

theorem Fails.data_eq {t : Tlv} (h : Fails peer before t e) :
    ((e = .malformedAttributeList ∨ e = .malformedAsPath) ∧ e.data = []) ∨ e.data = t.octets := by
  cases h with
  | repeated => exact Or.inl ⟨Or.inl rfl, rfl⟩
  | asPath => exact Or.inl ⟨Or.inr rfl, rfl⟩
  | length | category | origin | nextHop | unrecognized => exact Or.inr rfl

theorem Offence.data_eq (h : Offence peer before bs e) :
    ((e = .malformedAttributeList ∨ e = .malformedAsPath) ∧ e.data = []) ∨
      (∃ type, e = .missingWellKnown type ∧ e.data = [Numbered.code type]) ∨
        ∃ t rest, t.Fits ∧ bs = t.octets ++ rest ∧ Fails peer before t e ∧ e.data = t.octets := by
  cases h with
  | @missing type => exact Or.inr (Or.inl ⟨type, rfl, rfl⟩)
  | cutShort => exact Or.inl ⟨Or.inl rfl, rfl⟩
  | @failing t rest e ht hf =>
    rcases hf.data_eq with hd | hd
    · exact Or.inl hd
    · exact Or.inr (Or.inr ⟨t, rest, ht, rfl, hf, hd⟩)

/-- No longer run of attributes is in order than that which an offence follows. -/
theorem Offence.prefix_of_accepted {ts us : List Tlv} (hts : Accepted peer ts)
    (ho : Offence peer ts bs e) (hus : Accepted peer us)
    (h : us.flatMap octets <+: ts.flatMap octets ++ bs) : us <+: ts := by
  obtain ⟨cs, hcs⟩ := h
  rcases prefix_or_prefix hus.fits hts.fits hcs with hp | ⟨t, vs, rest, rfl, hr⟩
  · exact hp
  · exact absurd hus.passes (ho.not_passes hr)

namespace AttrList

variable {context : Context}

theorem exists_offence_of_decode (h : decode context bs = .error e) :
    ∃ ts rest, bs = ts.flatMap octets ++ rest ∧ Accepted context.peerType ts ∧
      Offence context.peerType ts rest e := by
  rcases admissible_or_offence context.peerType bs with
    ⟨ts, rfl, ha⟩ | ⟨ts, rest, e', rfl, ha, ho⟩
  · obtain ⟨l, hl, -⟩ := decode_of_admissible ha
    rw [hl] at h
    cases h
  · rw [decode_of_offence ha ho] at h
    cases h
    exact ⟨ts, rest, rfl, ha, ho⟩

/-- A section is refused for what follows the longest run of attributes that are in order, and the
peer is told of nothing else. -/
theorem decode_eq_error_iff (context : Context) (bs : Octets) (e : UpdateError) :
    (decode context bs = .error e ↔
      ∃ ts rest, bs = ts.flatMap octets ++ rest ∧ Accepted context.peerType ts ∧
        (∀ us, Accepted context.peerType us → us.flatMap octets <+: bs → us <+: ts) ∧
        Offence context.peerType ts rest e) ∧
    (decode context bs = .error e →
      ((e = .malformedAttributeList ∨ e = .malformedAsPath) ∧ e.data = []) ∨
        (∃ type, e = .missingWellKnown type ∧ e.data = [Numbered.code type]) ∨
        ∃ ts t rest, bs = ts.flatMap octets ++ (t.octets ++ rest) ∧
          Accepted context.peerType ts ∧ t.Fits ∧ Fails context.peerType ts t e ∧
          e.data = t.octets) := by
  refine ⟨⟨?_, ?_⟩, ?_⟩
  · intro h
    obtain ⟨ts, rest, rfl, ha, ho⟩ := exists_offence_of_decode h
    exact ⟨ts, rest, rfl, ha, fun us hus hp ↦ ho.prefix_of_accepted ha hus hp, ho⟩
  · rintro ⟨ts, rest, rfl, ha, -, ho⟩
    exact decode_of_offence ha ho
  · intro h
    obtain ⟨ts, rest, rfl, ha, ho⟩ := exists_offence_of_decode h
    rcases ho.data_eq with hd | hd | ⟨t, tail, ht, rfl, hf, hd⟩
    · exact Or.inl hd
    · exact Or.inr (Or.inl hd)
    · exact Or.inr (Or.inr ⟨ts, t, tail, rfl, ha, ht, hf, hd⟩)

end AttrList

end PathAttributes
