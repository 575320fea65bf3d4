import PathAttributes.BucketTable
import PathAttributes.Proofs.AttrList.Canonical

namespace PathAttributes

namespace AttrList

def effective (high low : AttrList) (id : AttrId) : Option Attr :=
  (first? high.attrs id).or (first? low.attrs id)

end AttrList

namespace BucketTable

open AttrList

variable {high low high₁ low₁ high₂ low₂ : AttrList} {a : Attr}

theorem attrs_canonical (high low : AttrList) :
    (canonical high low).attrs =
      ((firsts (high.attrs ++ low.attrs)).filter (fun a ↦ a.id.ns = .bgp)).map canonicalAttr := by
  simp [canonical, Chain.merge, AttrList.retain, AttrList.normalize, AttrList.sort]

theorem ascending_canonical (high low : AttrList) : Ascending (canonical high low).attrs := by
  rw [attrs_canonical]
  exact Ascending.map_canonicalAttr ((ascending_firsts _).filter _)

theorem ns_of_mem_canonical (h : a ∈ (canonical high low).attrs) : a.id.ns = .bgp := by
  rw [attrs_canonical] at h
  obtain ⟨b, hb, rfl⟩ := List.mem_map.1 h
  rw [id_canonicalAttr]
  simpa using (List.mem_filter.1 hb).2

theorem first?_canonical (high low : AttrList) (code : UInt8) :
    first? (canonical high low).attrs (.bgp code) =
      (effective high low (.bgp code)).map canonicalAttr := by
  have hns : decide ((AttrId.bgp code).ns = .bgp) = true := rfl
  rw [attrs_canonical, first?_map id_canonicalAttr, first?_filter (p := fun i ↦ i.ns = .bgp) hns,
    first?_firsts, first?_append, effective]

theorem exists_of_mem_canonical (h : a ∈ (canonical high low).attrs) :
    ∃ b, a = canonicalAttr b ∧
      (b ∈ high.attrs ∨ b ∈ low.attrs ∧ first? high.attrs b.id = none) := by
  have hid : a.id = .bgp a.id.code := by
    rw [AttrId.bgp, ← ns_of_mem_canonical h]
  have hfirst := (ascending_canonical high low).first?_eq_some h
  rw [hid, first?_canonical, effective] at hfirst
  obtain ⟨b, hb, rfl⟩ := Option.map_eq_some_iff.1 hfirst
  refine ⟨b, rfl, ?_⟩
  rcases Option.or_eq_some_iff.1 hb with hb | ⟨hn, hb⟩
  · exact .inl (mem_of_first? hb)
  · rw [← id_of_first? hb] at hn
    exact .inr ⟨mem_of_first? hb, hn⟩

theorem canonical_eq_iff :
    canonical high₁ low₁ = canonical high₂ low₂ ↔
      ∀ code, Option.Rel Attr.Alike (effective high₁ low₁ (.bgp code))
        (effective high₂ low₂ (.bgp code)) := by
  have hrel (x y : Option Attr) :
      x.map canonicalAttr = y.map canonicalAttr ↔ Option.Rel Attr.Alike x y := by
    cases x <;> cases y <;> simp [canonicalAttr_eq_iff]
  simp only [← hrel, ← first?_canonical]
  constructor
  · exact fun h code ↦ h ▸ rfl
  · intro h
    have hattrs : (canonical high₁ low₁).attrs = (canonical high₂ low₂).attrs := by
      refine (ascending_canonical _ _).ext (ascending_canonical _ _) (fun i ↦ ?_)
      by_cases hi : i.ns = .bgp
      · have hb : i = .bgp i.code := by
          rw [AttrId.bgp, ← hi]
        rw [hb]
        exact h i.code
      · have hn (high low : AttrList) : first? (canonical high low).attrs i = none :=
          first?_eq_none_iff.2 (fun a ha he ↦ hi (he ▸ ns_of_mem_canonical ha))
        rw [hn, hn]
    show (⟨(canonical high₁ low₁).attrs, true⟩ : AttrList) = ⟨(canonical high₂ low₂).attrs, true⟩
    rw [hattrs]

theorem get?_canonical (high low : AttrList) (type : AttrType) :
    (canonical high low).get? type = first? (canonical high low).attrs type.id :=
  find?_eq_first? (fun _ ↦ ascending_canonical high low) type.id

end BucketTable

end PathAttributes
