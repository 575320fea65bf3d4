import PathAttributes.Tlv

namespace PathAttributes.Tlv

theorem read?_eq_some_iff {bs rest : Octets} {t : Tlv} :
    read? bs = some (t, rest) ↔ t.Fits ∧ bs = t.octets ++ rest := by
  constructor
  · intro h
    exact read?_eq_some h
  · rintro ⟨ht, rfl⟩
    exact read?_octets_append ht rest

theorem read?_eq_none_iff {bs : Octets} :
    read? bs = none ↔ ∀ t rest, Fits t → bs ≠ t.octets ++ rest := by
  constructor
  · intro h t rest ht he
    rw [read?_eq_some_iff.2 ⟨ht, he⟩] at h
    cases h
  · intro h
    cases hr : read? bs with
    | none => rfl
    | some r =>
      obtain ⟨ht, he⟩ := read?_eq_some_iff.1 hr
      exact absurd he (h r.1 r.2 ht)

theorem split_nil : split [] = ([], []) := split_of_read?_none rfl

/-- Octets are the complete attributes at their start, followed by the rest. -/
theorem split_spec (bs : Octets) :
    (∀ t ∈ (split bs).1, Fits t) ∧ bs = (split bs).1.flatMap octets ++ (split bs).2 ∧
      read? (split bs).2 = none := by
  fun_induction split bs with
  | case1 bs r h _ s ih =>
    obtain ⟨hfits, hs, hrest⟩ := ih
    obtain ⟨ht, hbs⟩ := read?_eq_some h
    refine ⟨?_, ?_, hrest⟩
    · intro t hm
      rcases List.mem_cons.1 hm with rfl | hm
      · exact ht
      · exact hfits t hm
    · rw [List.flatMap_cons, List.append_assoc, ← hs]
      exact hbs
  | case2 bs h => exact ⟨fun t hm ↦ (List.not_mem_nil hm).elim, by simp, h⟩

theorem split_flatMap_append {ts : List Tlv} (h : ∀ t ∈ ts, Fits t) (bs : Octets) :
    split (ts.flatMap octets ++ bs) = (ts ++ (split bs).1, (split bs).2) := by
  induction ts with
  | nil => rfl
  | cons t ts ih =>
    have ht : read? (t.octets ++ (ts.flatMap octets ++ bs)) = some (t, ts.flatMap octets ++ bs) :=
      read?_octets_append (h t List.mem_cons_self) _
    rw [List.flatMap_cons, List.append_assoc, split_of_read? ht,
      ih (fun u hu ↦ h u (List.mem_cons_of_mem t hu))]
    rfl

theorem split_flatMap {ts : List Tlv} (h : ∀ t ∈ ts, Fits t) :
    split (ts.flatMap octets) = (ts, []) := by
  have hs := split_flatMap_append h []
  rwa [List.append_nil, split_nil, List.append_nil] at hs

/-- Complete attributes one after the other are told apart in one way only. -/
theorem flatMap_octets_inj {ts us : List Tlv} (ht : ∀ t ∈ ts, Fits t) (hu : ∀ u ∈ us, Fits u)
    (h : ts.flatMap octets = us.flatMap octets) : ts = us := by
  have hs := split_flatMap ht
  rw [h, split_flatMap hu] at hs
  exact (congrArg Prod.fst hs).symm

/-- Of two readings of the same octets one goes on where the other ends. -/
theorem prefix_or_prefix {ts us : List Tlv} (ht : ∀ t ∈ ts, Fits t) (hu : ∀ u ∈ us, Fits u)
    {bs cs : Octets} (h : ts.flatMap octets ++ bs = us.flatMap octets ++ cs) :
    ts <+: us ∨ ∃ t vs rest, ts = us ++ t :: vs ∧ read? cs = some (t, rest) := by
  have hs : (ts ++ (split bs).1, (split bs).2) = (us ++ (split cs).1, (split cs).2) := by
    rw [← split_flatMap_append ht, h, split_flatMap_append hu]
  rcases List.append_eq_append_iff.1 (congrArg Prod.fst hs) with ⟨vs, rfl, -⟩ | ⟨vs, rfl, hvs⟩
  · exact Or.inl ⟨vs, rfl⟩
  · cases vs with
    | nil => exact Or.inl (by simp only [List.append_nil, List.prefix_refl])
    | cons t vs =>
      cases hr : read? cs with
      | none =>
        rw [split_of_read?_none hr] at hvs
        cases hvs
      | some r =>
        rw [split_of_read? hr] at hvs
        obtain ⟨rfl, -⟩ := List.cons.inj hvs
        exact Or.inr ⟨r.1, vs, r.2, rfl, rfl⟩

end PathAttributes.Tlv
