import PathAttributes.AttrList.Basic

namespace PathAttributes.AttrList

def Ascending (attrs : List Attr) : Prop :=
  attrs.Pairwise (fun a b ↦ a.id.number < b.id.number)

instance (attrs : List Attr) : Decidable (Ascending attrs) :=
  inferInstanceAs (Decidable (attrs.Pairwise _))

/-- The list holds the given attributes and no others, marked as sorted, and its ids are strictly
increasing. -/
structure Sorts (l : AttrList) (attrs : List Attr) : Prop where
  sorted : l.sorted = true
  ascending : Ascending l.attrs
  perm : l.attrs.Perm attrs

theorem mem_insertNew {a b : Attr} {l : List Attr} (h : b ∈ insertNew a l) : b = a ∨ b ∈ l := by
  induction l with
  | nil => exact Or.inl (List.mem_singleton.1 h)
  | cons c l ih =>
    simp only [insertNew] at h
    split at h
    · exact List.mem_cons.1 h
    · split at h
      · exact Or.inr h
      · rcases List.mem_cons.1 h with rfl | h
        · exact Or.inr List.mem_cons_self
        · exact (ih h).imp_right (List.mem_cons_of_mem c)

theorem ascending_insertNew (a : Attr) {l : List Attr} (h : Ascending l) :
    Ascending (insertNew a l) := by
  induction l with
  | nil => exact List.pairwise_singleton _ a
  | cons b l ih =>
    obtain ⟨hb, hl⟩ := List.pairwise_cons.1 h
    simp only [insertNew]
    split
    · rename_i hlt
      refine List.pairwise_cons.2 ⟨fun c hc ↦ ?_, h⟩
      rcases List.mem_cons.1 hc with rfl | hc
      · exact hlt
      · exact Nat.lt_trans hlt (hb c hc)
    · rename_i hlt
      split
      · exact h
      · rename_i hid
        refine List.pairwise_cons.2 ⟨fun c hc ↦ ?_, ih hl⟩
        rcases mem_insertNew hc with rfl | hc
        · have hne : c.id.number ≠ b.id.number := fun he ↦ hid (AttrId.number_injective he)
          omega
        · exact hb c hc

theorem insertNew_perm {a : Attr} {l : List Attr} (h : a.id ∉ l.map Attr.id) :
    (insertNew a l).Perm (a :: l) := by
  induction l with
  | nil => exact List.Perm.refl _
  | cons b l ih =>
    obtain ⟨hb, hl⟩ : a.id ≠ b.id ∧ a.id ∉ l.map Attr.id := by
      simpa only [List.map_cons, List.mem_cons, not_or] using h
    simp only [insertNew, if_neg hb]
    split
    · exact List.Perm.refl _
    · exact ((ih hl).cons b).trans (List.Perm.swap a b l)

theorem ascending_foldl (attrs : List Attr) {l : List Attr} (h : Ascending l) :
    Ascending (attrs.foldl (fun l a ↦ insertNew a l) l) := by
  induction attrs generalizing l with
  | nil => exact h
  | cons a attrs ih => exact ih (ascending_insertNew a h)

theorem foldl_perm {attrs l : List Attr} (h : ((l ++ attrs).map Attr.id).Nodup) :
    (attrs.foldl (fun l a ↦ insertNew a l) l).Perm (l ++ attrs) := by
  induction attrs generalizing l with
  | nil => simp
  | cons a attrs ih =>
    have hfront : (l ++ a :: attrs).Perm (a :: l ++ attrs) := List.perm_middle
    have hids : ((a :: l ++ attrs).map Attr.id).Nodup := (hfront.map Attr.id).nodup_iff.1 h
    have ha : a.id ∉ l.map Attr.id := by
      rw [List.cons_append, List.map_cons, List.nodup_cons, List.map_append] at hids
      exact fun hm ↦ hids.1 (List.mem_append_left _ hm)
    have hins : (insertNew a l ++ attrs).Perm (a :: l ++ attrs) :=
      (insertNew_perm ha).append_right attrs
    exact (ih ((hins.map Attr.id).nodup_iff.2 hids)).trans (hins.trans hfront.symm)

theorem ascending_firsts (attrs : List Attr) : Ascending (firsts attrs) :=
  ascending_foldl attrs List.Pairwise.nil

/-- Attributes of distinct ids are all kept. -/
theorem firsts_perm {attrs : List Attr} (h : (attrs.map Attr.id).Nodup) :
    (firsts attrs).Perm attrs :=
  foldl_perm (l := []) h

theorem sort_sorts {attrs : List Attr} (h : (attrs.map Attr.id).Nodup) :
    (ofList attrs).sort.Sorts attrs :=
  ⟨rfl, ascending_firsts attrs, firsts_perm h⟩

theorem Ascending.eq_of_perm {as bs : List Attr} (ha : Ascending as) (hb : Ascending bs)
    (h : as.Perm bs) : as = bs :=
  h.eq_of_pairwise (fun _ _ _ _ hlt hgt ↦ absurd hgt (Nat.lt_asymm hlt)) ha hb

theorem Ascending.nodup {attrs : List Attr} (h : Ascending attrs) : (attrs.map Attr.id).Nodup :=
  List.pairwise_map.2 (h.imp (fun hlt he ↦ Nat.ne_of_lt hlt (congrArg AttrId.number he)))

theorem eq_of_attrs {l m : AttrList} (ha : l.attrs = m.attrs) (hs : l.sorted = m.sorted) :
    l = m := by
  cases l
  cases m
  simp_all

/-- Attributes are sorted in one way only. -/
theorem Sorts.eq {l m : AttrList} {as bs : List Attr} (hl : l.Sorts as) (hm : m.Sorts bs)
    (h : as.Perm bs) : l = m := by
  have ha : l.attrs = m.attrs :=
    hl.ascending.eq_of_perm hm.ascending (hl.perm.trans (h.trans hm.perm.symm))
  exact eq_of_attrs ha (hl.sorted.trans hm.sorted.symm)

end PathAttributes.AttrList
