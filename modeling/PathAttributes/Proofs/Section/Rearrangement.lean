import Mathlib.Data.List.Perm.Basic
import Mathlib.Logic.Relation
import PathAttributes.Proofs.Section.Acceptance
import PathAttributes.Proofs.Section.Kept

namespace PathAttributes

open Tlv

structure Tlv.IsPreference (t : Tlv) : Prop where
  code : t.code = 5
  category : t.flags &&& 0xC0 = 0x80
  length : t.value.length = 4

/-- A preference is put among attributes, for the first time or once more, is taken away from them
or is given another value. -/
inductive Meddles : List Tlv → List Tlv → Prop
  | inserted (ts us : List Tlv) {t : Tlv} (ht : t.IsPreference) : Meddles (ts ++ us) (ts ++ t :: us)
  | repeated (ts us : List Tlv) {t : Tlv} (ht : t.IsPreference) (hm : t ∈ ts ++ us) :
      Meddles (ts ++ us) (ts ++ t :: us)
  | removed (ts us : List Tlv) {t : Tlv} (ht : t.IsPreference) : Meddles (ts ++ t :: us) (ts ++ us)
  | changed (ts us : List Tlv) {t : Tlv} (ht : t.IsPreference) {v : Octets} (hv : v.length = 4) :
      Meddles (ts ++ t :: us) (ts ++ { t with value := v } :: us)

namespace Tlv.IsPreference

variable {t : Tlv}

theorem code_eq (h : t.IsPreference) : t.code = Numbered.code AttrType.localPref := h.code

theorem fits (h : t.IsPreference) : t.Fits := by
  rw [Fits, h.length, lengthWidth]
  split <;> decide

theorem conforms (h : t.IsPreference) : t.Conforms := by
  have htype {type : AttrType} (hc : t.code = Numbered.code type) : type = .localPref :=
    Numbered.code_injective (hc.symm.trans h.code_eq)
  refine ⟨?_, ?_, ?_, ?_⟩
  · intro type hc n hn
    rw [htype hc] at hn
    cases hn
    exact h.length
  · intro type hc
    rw [htype hc]
    exact h.category
  · intro type hc
    rw [htype hc]
    trivial
  · intro hu
    rw [h.code] at hu
    exact absurd hu (by decide)

theorem isKept_external (h : t.IsPreference) : t.isKept .external = false := by
  rw [isKept, h.code]
  rfl

theorem with_value (h : t.IsPreference) {v : Octets} (hv : v.length = 4) :
    IsPreference { t with value := v } :=
  ⟨h.code, h.category, hv⟩

end Tlv.IsPreference

theorem Admissible.perm {peer : PeerType} {ts us : List Tlv} (h : Admissible peer ts)
    (hp : ts.Perm us) : Admissible peer us := by
  have hcodes : (keptCodes peer ts).Perm (keptCodes peer us) := (hp.filter _).map code
  refine ⟨?_, ?_, hcodes.nodup_iff.1 h.distinct, ?_⟩
  · exact fun u hu ↦ h.complete u (hp.mem_iff.2 hu)
  · exact fun u hu ↦ h.conforms u (hp.mem_iff.2 hu)
  · exact fun type hm ↦ hcodes.mem_iff.1 (h.mandatory type hm)

namespace Meddles

variable {ts us : List Tlv}

theorem forall_mem (h : Meddles ts us) {p : Tlv → Prop} (hp : ∀ t : Tlv, t.IsPreference → p t)
    (hts : ∀ t ∈ ts, p t) : ∀ u ∈ us, p u := by
  cases h with
  | inserted as bs ht | repeated as bs ht =>
    rw [List.forall_mem_append, List.forall_mem_cons]
    rw [List.forall_mem_append] at hts
    exact ⟨hts.1, hp _ ht, hts.2⟩
  | removed as bs ht =>
    rw [List.forall_mem_append, List.forall_mem_cons] at hts
    exact List.forall_mem_append.2 ⟨hts.1, hts.2.2⟩
  | changed as bs ht hv =>
    rw [List.forall_mem_append, List.forall_mem_cons] at hts ⊢
    exact ⟨hts.1, hp _ (ht.with_value hv), hts.2.2⟩

theorem filter_isKept (h : Meddles ts us) :
    us.filter (isKept .external) = ts.filter (isKept .external) := by
  have hout (as bs : List Tlv) {t : Tlv} (ht : t.IsPreference) :
      (as ++ t :: bs).filter (isKept .external) = (as ++ bs).filter (isKept .external) := by
    simp only [List.filter_append, List.filter_cons, ht.isKept_external, Bool.false_eq_true,
      if_false]
  cases h with
  | inserted as bs ht | repeated as bs ht => exact hout as bs ht
  | removed as bs ht => exact (hout as bs ht).symm
  | changed as bs ht hv => rw [hout as bs (ht.with_value hv), hout as bs ht]

theorem admissible (h : Meddles ts us) (ha : Admissible .external ts) :
    Admissible .external us := by
  have hcodes : keptCodes .external us = keptCodes .external ts :=
    congrArg (List.map code) h.filter_isKept
  refine ⟨?_, ?_, ?_, ?_⟩
  · exact h.forall_mem (fun _ ↦ IsPreference.fits) ha.complete
  · exact h.forall_mem (fun _ ↦ IsPreference.conforms) ha.conforms
  · rw [hcodes]
    exact ha.distinct
  · rw [hcodes]
    exact ha.mandatory

theorem run (h : Relation.ReflTransGen Meddles ts us) (ha : Admissible .external ts) :
    Admissible .external us ∧
      us.filter (isKept .external) = ts.filter (isKept .external) := by
  -- By induction on the changes, none of which touches what is kept.
  induction h with
  | refl => exact ⟨ha, rfl⟩
  | tail _ hstep ih => exact ⟨hstep.admissible ih.1, hstep.filter_isKept.trans ih.2⟩

end Meddles

namespace AttrList

variable {context : Context} {ts us : List Tlv} {l : AttrList}

theorem admissible_of_decode (hfits : ∀ t ∈ ts, t.Fits)
    (h : decode context (ts.flatMap octets) = .ok l) :
    Admissible context.peerType ts ∧ l.Sorts (described context ts) := by
  obtain ⟨us, he, ha, hs⟩ := exists_admissible_of_decode h
  rw [flatMap_octets_inj hfits ha.complete he]
  exact ⟨ha, hs⟩

theorem decode_of_perm (hfits : ∀ t ∈ ts, t.Fits) (hp : ts.Perm us)
    (h : decode context (ts.flatMap octets) = .ok l) :
    decode context (us.flatMap octets) = .ok l := by
  obtain ⟨ha, hs⟩ := admissible_of_decode hfits h
  exact decode_of_sorts (ha.perm hp)
    ⟨hs.sorted, hs.ascending, hs.perm.trans (described_perm hp)⟩

theorem decode_of_meddles (hpeer : context.peerType = .external)
    (hm : Relation.ReflTransGen Meddles ts us) (ha : Admissible context.peerType ts)
    (hs : l.Sorts (described context ts)) : decode context (us.flatMap octets) = .ok l := by
  rw [hpeer] at ha
  obtain ⟨hadm, hfilter⟩ := Meddles.run hm ha
  have hdescribed : described context us = described context ts := by
    rw [described, described, keptCodes, keptCodes, hpeer, hfilter]
  exact decode_of_sorts (hpeer ▸ hadm) (hdescribed ▸ hs)

/-- From a peer of another AS the preference is always the speaker's own. -/
theorem mem_localPref_iff (hpeer : context.peerType = .external)
    (hs : l.Sorts (described context ts)) (a : Attr) :
    (a ∈ l.attrs ∧ a.id = .bgp 5) ↔ a = defaultPreference context.defaultLocalPref := by
  have hkept {t : Tlv} (ht : t.isKept .external = true) : t.code ≠ 5 := by
    intro hc
    rw [isKept, hc] at ht
    cases ht
  have hnone : Numbered.code AttrType.localPref ∉ keptCodes context.peerType ts := by
    rw [hpeer]
    intro hm
    obtain ⟨t, -, ht, hc⟩ := mem_keptCodes.1 hm
    exact hkept ht hc
  rw [hs.perm.mem_iff, described, if_neg hnone, hpeer, List.mem_append, List.mem_singleton]
  constructor
  · rintro ⟨hm | rfl, hid⟩
    · obtain ⟨t, ht, rfl⟩ := List.mem_map.1 hm
      exact absurd (congrArg AttrId.code hid) (hkept (List.mem_filter.1 ht).2)
    · rfl
  · rintro rfl
    exact ⟨.inr rfl, rfl⟩

/-- The order in which attributes are sent plays no part. A peer of another AS may send preferences
wherever and as often as it likes, but what is read is the same as without them. -/
theorem decode_rearranged (context : Context) :
    (∀ ts us : List Tlv, (∀ t ∈ ts, t.Fits) → ts.Perm us → ∀ l,
      decode context (ts.flatMap octets) = .ok l ↔ decode context (us.flatMap octets) = .ok l) ∧
    (context.peerType = .external → ∀ bs l, decode context bs = .ok l →
      (∀ a : Attr, (a ∈ l.attrs ∧ a.id = .bgp 5) ↔
        a = ⟨.bgp 5, ⟨0x80⟩, .int context.defaultLocalPref⟩) ∧
      (∃ ts : List Tlv, (∀ t ∈ ts, t.Fits) ∧ bs = ts.flatMap octets) ∧
      ∀ ts us : List Tlv, (∀ t ∈ ts, t.Fits) → bs = ts.flatMap octets →
        Relation.ReflTransGen Meddles ts us → decode context (us.flatMap octets) = .ok l) := by
  refine ⟨?_, ?_⟩
  · intro ts us hfits hp l
    have hfits' : ∀ u ∈ us, u.Fits := fun u hu ↦ hfits u (hp.mem_iff.2 hu)
    exact ⟨decode_of_perm hfits hp, decode_of_perm hfits' hp.symm⟩
  · intro hpeer bs l h
    obtain ⟨ts, hbs, ha, hs⟩ := exists_admissible_of_decode h
    refine ⟨mem_localPref_iff hpeer hs, ⟨ts, ha.complete, hbs⟩, ?_⟩
    intro vs us hfits he hm
    rw [hbs] at he
    rw [← flatMap_octets_inj ha.complete hfits he] at hm
    exact decode_of_meddles hpeer hm ha hs

def offered : List Tlv := [⟨0x40, 3, [10, 0, 0, 1]⟩, ⟨0x40, 1, [0]⟩, ⟨0x40, 2, []⟩]

theorem decode_rearranged_offered :
    ∃ l, decode ⟨.external, 100⟩ (offered.flatMap octets) = .ok l ∧
      decode ⟨.external, 100⟩ (offered.reverse.flatMap octets) = .ok l ∧
      decode ⟨.external, 100⟩ ((⟨0x90, 5, [0, 0, 1, 0]⟩ :: offered).flatMap octets) = .ok l ∧
      ⟨.bgp 5, ⟨0x80⟩, .int 100⟩ ∈ l.attrs := by
  have h : decode ⟨.external, 100⟩ (offered.flatMap octets) =
      .ok ⟨[⟨.bgp 1, ⟨0x40⟩, .int 0⟩, ⟨.bgp 2, ⟨0x40⟩, .asPath []⟩,
        ⟨.bgp 3, ⟨0x40⟩, .address ⟨0x0A000001⟩⟩, ⟨.bgp 5, ⟨0x80⟩, .int 100⟩], true⟩ := by
    decide +kernel
  have hfits : ∀ t ∈ offered, t.Fits := by
    simp only [Fits]
    decide
  have hpref : IsPreference ⟨0x90, 5, [0, 0, 0, 9]⟩ := ⟨rfl, by decide, rfl⟩
  have hm : Relation.ReflTransGen Meddles offered (⟨0x90, 5, [0, 0, 1, 0]⟩ :: offered) :=
    .tail (.single (.inserted [] offered hpref)) (.changed [] offered hpref rfl)
  obtain ⟨horder, hexternal⟩ := decode_rearranged ⟨.external, 100⟩
  obtain ⟨hown, -, hsame⟩ := hexternal rfl _ _ h
  exact ⟨_, h, (horder offered _ hfits (List.reverse_perm _).symm _).1 h,
    hsame offered _ hfits rfl hm, ((hown _).2 rfl).1⟩

end AttrList

end PathAttributes
