import Mathlib.Data.List.Destutter
import PathAttributes.AttrList.Chain
import PathAttributes.Proofs.AttrList.First

namespace PathAttributes

namespace AttrList

variable {attrs : List Attr} {l : AttrList}

def idLe (a b : Attr) : Bool := decide (a.id.number ≤ b.id.number)

/-- The attributes in order of ids, where those of one id stay in their order and all of them but
the first are dropped. -/
def stableFirsts (attrs : List Attr) : List Attr :=
  (attrs.mergeSort idLe).destutter (fun a b ↦ a.id ≠ b.id)

theorem idLe_trans {a b c : Attr} (hab : idLe a b = true) (hbc : idLe b c = true) :
    idLe a c = true :=
  decide_eq_true (Nat.le_trans (of_decide_eq_true hab) (of_decide_eq_true hbc))

theorem idLe_total (a b : Attr) : (idLe a b || idLe b a) = true := by
  simp [idLe, Nat.le_total]

theorem first?_mergeSort (attrs : List Attr) (id : AttrId) :
    first? (attrs.mergeSort idLe) id = first? attrs id := by
  have htrans (a b c : Attr) := @idLe_trans a b c
  have hequal : (attrs.filter (fun a ↦ a.id = id)).Pairwise (idLe · ·) := by
    refine List.pairwise_of_forall_mem_list (fun a ha b hb ↦ ?_)
    have ha : a.id = id := by simpa using (List.mem_filter.1 ha).2
    have hb : b.id = id := by simpa using (List.mem_filter.1 hb).2
    simp [idLe, ha, hb]
  have hsub := (List.sublist_mergeSort htrans idLe_total hequal List.filter_sublist).filter
    (fun a ↦ decide (a.id = id))
  have hperm := (List.mergeSort_perm attrs idLe).filter (fun a ↦ decide (a.id = id))
  -- Those of one id are kept in their order, and no others are of this id.
  have hfilter : attrs.filter (fun a ↦ a.id = id) =
      (attrs.mergeSort idLe).filter (fun a ↦ a.id = id) := by
    rw [List.filter_filter] at hsub
    simp only [Bool.and_self] at hsub
    exact hsub.eq_of_length hperm.length_eq.symm
  rw [first?, first?, ← List.head?_filter, ← List.head?_filter, hfilter]

theorem first?_destutter' (a : Attr) (attrs : List Attr) (id : AttrId) :
    first? (attrs.destutter' (fun a b ↦ a.id ≠ b.id) a) id = first? (a :: attrs) id := by
  induction attrs generalizing a with
  | nil => rfl
  | cons b attrs ih =>
    by_cases h : a.id = b.id
    · rw [List.destutter'_cons_neg _ (not_not.2 h), ih, first?_cons, first?_cons, first?_cons, h]
      split <;> rfl
    · rw [List.destutter'_cons_pos _ h, first?_cons, ih, first?_cons a]

theorem ascending_destutter' {a : Attr} (h : (a :: attrs).Pairwise (idLe · ·)) :
    Ascending (attrs.destutter' (fun a b ↦ a.id ≠ b.id) a) := by
  induction attrs generalizing a with
  | nil => exact List.pairwise_singleton _ a
  | cons b attrs ih =>
    obtain ⟨ha, hb⟩ := List.pairwise_cons.1 h
    obtain ⟨hab, hattrs⟩ := List.forall_mem_cons.1 ha
    by_cases hid : a.id = b.id
    · rw [List.destutter'_cons_neg _ (not_not.2 hid)]
      exact ih (List.pairwise_cons.2 ⟨hattrs, (List.pairwise_cons.1 hb).2⟩)
    · rw [List.destutter'_cons_pos _ hid]
      refine List.pairwise_cons.2 ⟨fun c hc ↦ ?_, ih hb⟩
      have hne : a.id.number ≠ b.id.number := fun he ↦ hid (AttrId.number_injective he)
      have hle : a.id.number ≤ b.id.number := of_decide_eq_true hab
      have hbc : b.id.number ≤ c.id.number := by
        rcases List.mem_cons.1 ((List.destutter'_sublist _ _ b).subset hc) with rfl | hc
        · exact Nat.le_refl _
        · exact of_decide_eq_true ((List.pairwise_cons.1 hb).1 c hc)
      omega

theorem first?_stableFirsts (attrs : List Attr) (id : AttrId) :
    first? (stableFirsts attrs) id = first? attrs id := by
  rw [← first?_mergeSort attrs, stableFirsts]
  cases attrs.mergeSort idLe with
  | nil => rfl
  | cons a sorted => exact first?_destutter' a sorted id

theorem ascending_stableFirsts (attrs : List Attr) : Ascending (stableFirsts attrs) := by
  have htrans (a b c : Attr) := @idLe_trans a b c
  have hsorted := List.pairwise_mergeSort htrans idLe_total attrs
  rw [stableFirsts]
  cases hs : attrs.mergeSort idLe with
  | nil => exact .nil
  | cons a sorted => exact ascending_destutter' (hs ▸ hsorted)

theorem firsts_eq_stableFirsts (attrs : List Attr) : firsts attrs = stableFirsts attrs :=
  (ascending_firsts attrs).ext (ascending_stableFirsts attrs)
    (fun id ↦ (first?_firsts attrs id).trans (first?_stableFirsts attrs id).symm)

theorem firsts_of_ascending (h : Ascending attrs) : firsts attrs = attrs :=
  (ascending_firsts attrs).ext h (first?_firsts attrs)

theorem sort_sort (l : AttrList) : l.sort.sort = l.sort := sort_of_sorted (sorted_sort l)

theorem find?_sort (l : AttrList) (id : AttrId) : l.sort.find? id = l.find? id := by
  rw [sort]
  split
  · rfl
  · rename_i hs
    have hfind : l.find? id = first? l.attrs id := find?_eq_first? (fun h ↦ absurd h hs) id
    rw [hfind, ← first?_firsts]
    exact find?_eq_first? (fun _ ↦ ascending_firsts l.attrs) id

end AttrList

namespace Chain

open AttrList

variable {c d : Chain}

theorem truthful_merge (c : Chain) : c.merge.Truthful := fun _ ↦ ascending_firsts _

theorem first?_merge (c : Chain) (id : AttrId) :
    first? c.merge.attrs id = first? (c.flatMap (·.attrs)) id := first?_firsts _ id

theorem find?_merge (c : Chain) (id : AttrId) :
    c.merge.find? id = first? (c.flatMap (·.attrs)) id :=
  (find?_eq_first? (truthful_merge c) id).trans (first?_merge c id)

theorem find?_eq_first? (h : ∀ l ∈ c, l.Truthful) (id : AttrId) :
    c.find? id = first? (c.flatMap (·.attrs)) id := by
  induction c with
  | nil => rfl
  | cons l c ih =>
    obtain ⟨hl, hc⟩ := List.forall_mem_cons.1 h
    have hrest : List.findSome? (AttrList.find? · id) c = first? (c.flatMap (·.attrs)) id := ih hc
    rw [Chain.find?, List.findSome?_cons, List.flatMap_cons, first?_append, hrest,
      AttrList.find?_eq_first? hl]
    cases first? l.attrs id <;> rfl

theorem exists_mem_merge_iff (c : Chain) (id : AttrId) :
    (∃ a ∈ c.merge.attrs, a.id = id) ↔ ∃ l ∈ c, ∃ a ∈ l.attrs, a.id = id := by
  have hsome (attrs : List Attr) : (first? attrs id).isSome ↔ ∃ a ∈ attrs, a.id = id := by
    simp [first?]
  rw [← hsome, first?_merge, hsome]
  constructor
  · rintro ⟨a, ha, hid⟩
    obtain ⟨l, hl, ha⟩ := List.mem_flatMap.1 ha
    exact ⟨l, hl, a, ha, hid⟩
  · rintro ⟨l, hl, a, ha, hid⟩
    exact ⟨a, List.mem_flatMap.2 ⟨l, hl, ha⟩, hid⟩

theorem merge_congr
    (h : ∀ id, first? (c.flatMap (·.attrs)) id = first? (d.flatMap (·.attrs)) id) :
    c.merge = d.merge := by
  have hattrs : c.merge.attrs = d.merge.attrs := by
    refine (ascending_firsts _).ext (ascending_firsts _) ?_
    exact fun id ↦ (first?_merge c id).trans ((h id).trans (first?_merge d id).symm)
  exact congrArg (AttrList.mk · true) hattrs

/-- A part of a chain can be merged before the others. -/
theorem merge_append_merge (high part low : Chain) :
    merge (high ++ part.merge :: low) = merge (high ++ part ++ low) := by
  refine merge_congr (fun id ↦ ?_)
  simp only [List.flatMap_append, List.flatMap_cons, first?_append, first?_merge, Option.or_assoc]

theorem merge_append_empty (high low : Chain) :
    merge (high ++ .empty :: low) = merge (high ++ low) := by
  refine merge_congr (fun id ↦ ?_)
  rw [List.flatMap_append, List.flatMap_cons, List.flatMap_append]
  rfl

theorem sort_eq_merge {l : AttrList} (h : l.Truthful) : l.sort = merge [l] := by
  rw [sort, merge, List.flatMap_singleton]
  split
  · rename_i hs
    rw [firsts_of_ascending (h hs), ← hs]
  · rfl

structure Unites (m : AttrList) (c : Chain) : Prop where
  sorted : m.sorted = true
  ascending : Ascending m.attrs
  ids : ∀ id, (∃ a ∈ m.attrs, a.id = id) ↔ ∃ l ∈ c, ∃ a ∈ l.attrs, a.id = id
  found : ∀ id, m.find? id = c.find? id
  first : ∀ id, c.find? id = first? (c.flatMap (·.attrs)) id

theorem unites_merge (h : ∀ l ∈ c, l.Truthful) : Unites c.merge c :=
  ⟨rfl, ascending_firsts _, exists_mem_merge_iff c,
    fun id ↦ (find?_merge c id).trans (find?_eq_first? h id).symm, find?_eq_first? h⟩

/-- Merging is the left-biased union of lists: whatever is found in the merged list is found in the
chain, which is the first of its id from the highest to the lowest priority. So lists can be merged
in stages, and sorting is merging a single list. -/
theorem leftBiased_merge (c : Chain) (h : ∀ l ∈ c, l.Truthful) :
    Unites c.merge c ∧
      c.merge.attrs = stableFirsts (c.flatMap (·.attrs)) ∧
      (∀ high part low : Chain, merge (high ++ part.merge :: low) = merge (high ++ part ++ low)) ∧
      (∀ l m n, merge [l, m, n] = merge [merge [l, m], n] ∧
        merge [l, m, n] = merge [l, merge [m, n]]) ∧
      (∀ high low : Chain, merge (high ++ .empty :: low) = merge (high ++ low)) ∧
      (∀ part : Chain, merge [part.merge, .empty] = part.merge ∧
        merge [.empty, part.merge] = part.merge) ∧
      ∀ l : AttrList, (l.Truthful → l.sort = merge [l]) ∧ l.sort.sort = l.sort ∧
        ∀ id, l.sort.find? id = l.find? id := by
  have hstage (part : Chain) : merge [part.merge] = part.merge := by
    simpa using merge_append_merge [] part []
  refine ⟨unites_merge h, firsts_eq_stableFirsts _, merge_append_merge, ?_, merge_append_empty, ?_,
    fun l ↦ ⟨sort_eq_merge, sort_sort l, find?_sort l⟩⟩
  · intro l m n
    exact ⟨(merge_append_merge [] [l, m] [n]).symm, (merge_append_merge [l] [m, n] []).symm⟩
  · intro part
    exact ⟨(merge_append_empty [part.merge] []).trans (hstage part),
      (merge_append_empty [] [part.merge]).trans (hstage part)⟩

def layers : Chain :=
  [.ofList [⟨.bgp 4, ⟨0x80⟩, .int 1⟩, ⟨.bgp 4, ⟨0x80⟩, .int 3⟩],
    ⟨[⟨.bgp 4, ⟨0x80⟩, .int 2⟩, ⟨.bgp 5, ⟨0x80⟩, .int 300⟩], true⟩,
    .ofList [⟨.bgp 6, ⟨0x80⟩, .raw []⟩, ⟨⟨.ospf, 1⟩, ⟨0⟩, .int 10⟩, ⟨.bgp 5, ⟨0x80⟩, .int 100⟩]]

theorem leftBiased_merge_layers :
    (∀ l ∈ layers, l.Truthful) ∧ Unites layers.merge layers ∧
      layers.merge = ⟨[⟨.bgp 4, ⟨0x80⟩, .int 1⟩, ⟨.bgp 5, ⟨0x80⟩, .int 300⟩,
        ⟨.bgp 6, ⟨0x80⟩, .raw []⟩, ⟨⟨.ospf, 1⟩, ⟨0⟩, .int 10⟩], true⟩ ∧
      layers.find? (.bgp 5) = some ⟨.bgp 5, ⟨0x80⟩, .int 300⟩ := by
  have htrue : ∀ l ∈ layers, l.Truthful := by
    intro l hl
    simp only [layers, List.mem_cons, List.not_mem_nil, or_false] at hl
    rcases hl with rfl | rfl | rfl
    · exact nofun
    · intro _
      exact List.pairwise_pair.2 (by decide)
    · exact nofun
  have hunites := (leftBiased_merge layers htrue).1
  refine ⟨htrue, hunites, by decide +kernel, ?_⟩
  rw [hunites.first]
  decide +kernel

end Chain

end PathAttributes
