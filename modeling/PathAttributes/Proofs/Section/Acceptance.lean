import PathAttributes.Proofs.Section.Reading

namespace PathAttributes.AttrList

open Tlv

variable {context : Context} {bs : Octets} {l : AttrList}

theorem exists_admissible_of_decode (h : decode context bs = .ok l) :
    ∃ ts, bs = ts.flatMap octets ∧ Admissible context.peerType ts ∧
      l.Sorts (described context ts) := by
  rcases admissible_or_offence context.peerType bs with
    ⟨ts, rfl, ha⟩ | ⟨ts, rest, e, rfl, ha, ho⟩
  · obtain ⟨m, hm, hs⟩ := decode_of_admissible ha
    rw [h] at hm
    cases hm
    exact ⟨ts, rfl, ha, hs⟩
  · rw [decode_of_offence ha ho] at h
    cases h

theorem decode_of_sorts {ts : List Tlv} (ha : Admissible context.peerType ts)
    (hs : l.Sorts (described context ts)) : decode context (ts.flatMap octets) = .ok l := by
  obtain ⟨m, hm, hsm⟩ := decode_of_admissible ha
  rw [hm, hs.eq hsm (List.Perm.refl _)]

/-- A section is taken exactly if it is made of complete attributes which are in order, and then the
list holds what they describe. -/
theorem decode_eq_ok_iff (context : Context) (bs : Octets) :
    (∀ l, decode context bs = .ok l ↔
      ∃ ts, bs = ts.flatMap octets ∧ Admissible context.peerType ts ∧
        l.Sorts (described context ts)) ∧
    ((∃ l, decode context bs = .ok l) ↔
      ∃ ts, bs = ts.flatMap octets ∧ Admissible context.peerType ts) := by
  refine ⟨fun l ↦ ⟨exists_admissible_of_decode, ?_⟩, ?_, ?_⟩
  · rintro ⟨ts, rfl, ha, hs⟩
    exact decode_of_sorts ha hs
  · rintro ⟨l, h⟩
    obtain ⟨ts, hbs, ha, -⟩ := exists_admissible_of_decode h
    exact ⟨ts, hbs, ha⟩
  · rintro ⟨ts, rfl, ha⟩
    obtain ⟨l, hl, -⟩ := decode_of_admissible ha
    exact ⟨l, hl⟩

end PathAttributes.AttrList
