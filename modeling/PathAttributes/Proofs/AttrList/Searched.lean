import PathAttributes.Proofs.AttrList.Interchange

namespace PathAttributes.AttrList

variable {attrs : List Attr} {l : AttrList} {m n base size : Nat}

def IsAbove (attrs : List Attr) (n p : Nat) : Prop := ∃ a, attrs[p]? = some a ∧ n < a.id.number

theorem bisect_of_le (hs : size ≤ 1) : bisect attrs n base size = base := by
  rw [bisect, if_pos hs]

theorem bisect_of_isAbove (hs : 1 < size) (h : IsAbove attrs n (base + size / 2)) :
    bisect attrs n base size = bisect attrs n base (size - size / 2) := by
  obtain ⟨a, ha, hlt⟩ := h
  rw [bisect, if_neg (Nat.not_le.2 hs)]
  simp only [ha, Option.any_some, hlt, decide_true, if_true]

theorem bisect_of_not_isAbove (hs : 1 < size) (h : ¬ IsAbove attrs n (base + size / 2)) :
    bisect attrs n base size = bisect attrs n (base + size / 2) (size - size / 2) := by
  have hany : attrs[base + size / 2]?.any (fun a ↦ decide (n < a.id.number)) = false := by
    rw [Option.any_eq_false_iff_get]
    intro hsome
    exact decide_eq_false (fun hlt ↦ h ⟨_, Option.eq_some_of_isSome hsome, hlt⟩)
  rw [bisect, if_neg (Nat.not_le.2 hs)]
  simp only [hany, Bool.false_eq_true, if_false]

theorem bisect_bounds (attrs : List Attr) (n base size : Nat) :
    base ≤ bisect attrs n base size ∧ bisect attrs n base size ≤ base + (size - 1) := by
  induction size using Nat.strong_induction_on generalizing base with
  | h size ih =>
    by_cases hs : size ≤ 1
    · rw [bisect_of_le hs]
      omega
    · have hs' : 1 < size := by omega
      by_cases h : IsAbove attrs n (base + size / 2)
      · have hih := ih (size - size / 2) (by omega) base
        rw [bisect_of_isAbove hs' h]
        omega
      · have hih := ih (size - size / 2) (by omega) (base + size / 2)
        rw [bisect_of_not_isAbove hs' h]
        omega

/-- The search by halves ends no further on for a lesser number, even where attributes are in no
order. -/
theorem bisect_mono (attrs : List Attr) (h : m ≤ n) (base size : Nat) :
    bisect attrs m base size ≤ bisect attrs n base size := by
  induction size using Nat.strong_induction_on generalizing base with
  | h size ih =>
    by_cases hs : size ≤ 1
    · rw [bisect_of_le hs, bisect_of_le hs]
    · have hs' : 1 < size := by omega
      have hlt : size - size / 2 < size := by omega
      by_cases hn : IsAbove attrs n (base + size / 2)
      · obtain ⟨a, ha, hna⟩ := hn
        rw [bisect_of_isAbove hs' ⟨a, ha, Nat.lt_of_le_of_lt h hna⟩,
          bisect_of_isAbove hs' ⟨a, ha, hna⟩]
        exact ih _ hlt base
      · rw [bisect_of_not_isAbove hs' hn]
        by_cases hm : IsAbove attrs m (base + size / 2)
        · -- The searches part here: one goes on from the start, the other from the middle.
          have hlow := (bisect_bounds attrs m base (size - size / 2)).2
          have hhigh := (bisect_bounds attrs n (base + size / 2) (size - size / 2)).1
          rw [bisect_of_isAbove hs' hm]
          omega
        · rw [bisect_of_not_isAbove hs' hm]
          exact ih _ hlt (base + size / 2)

/-- Attributes among which each is found by halves are in order. -/
theorem ascending_of_found (hnodup : attrs.Nodup)
    (h : ∀ a ∈ attrs, attrs[bisect attrs a.id.number 0 attrs.length]? = some a) :
    Ascending attrs := by
  have hplace (p : Nat) (hp : p < attrs.length) :
      bisect attrs attrs[p].id.number 0 attrs.length = p := by
    obtain ⟨hq, he⟩ := List.getElem?_eq_some_iff.1 (h _ (List.getElem_mem hp))
    exact (hnodup.getElem_inj_iff).1 he
  rw [Ascending, List.pairwise_iff_getElem]
  intro p q hp hq hpq
  apply Nat.lt_of_not_le
  intro hle
  have hmono := bisect_mono attrs hle 0 attrs.length
  rw [hplace p hp, hplace q hq] at hmono
  omega

/-- A mark is true just when no attribute occurs twice or escapes the search for its id. -/
theorem truthful_iff_found :
    l.Truthful ↔
      (l.sorted = true → l.attrs.Nodup ∧ ∀ a ∈ l.attrs, l.find? a.id = some a) := by
  constructor
  · intro h hs
    refine ⟨(h hs).nodup.of_map, fun a ha ↦ ?_⟩
    rw [find?_eq_first? h]
    exact (h hs).first?_eq_some ha
  · intro h hs
    obtain ⟨hnodup, hfound⟩ := h hs
    apply ascending_of_found hnodup
    intro a ha
    have hfind := hfound a ha
    rw [find?, if_pos hs] at hfind
    exact (Option.filter_eq_some_iff.1 hfind).1

/-- A mark is true just when the list cannot be told from the same attributes without a mark. -/
theorem truthful_iff_interchangeable : l.Truthful ↔ l.Interchangeable (ofList l.attrs) := by
  constructor
  · intro h
    exact h.interchangeable (fun hs ↦ nomatch hs) rfl
  · intro h hs
    have hsort := h.sort
    rw [sort_of_sorted hs] at hsort
    rw [hsort]
    exact ascending_firsts l.attrs

end PathAttributes.AttrList
