import PathAttributes.AsPath.Reader

namespace PathAttributes.AsPath

/-- The octets are segments one after the other, each with a count that its octet can hold. -/
def IsWhole (bs : Octets) : Prop :=
  ∃ path : List Segment, (∀ s ∈ path, s.members.length ≤ 255) ∧ bs = path.flatMap Segment.octets

theorem split_flatMap_append {path : List Segment} (h : ∀ s ∈ path, s.members.length ≤ 255)
    (rest : Octets) :
    split (path.flatMap Segment.octets ++ rest) = (path ++ (split rest).1, (split rest).2) := by
  induction path with
  | nil => rfl
  | cons s path ih =>
    have hs : s.members.length < 256 := Nat.lt_succ_of_le (h s List.mem_cons_self)
    rw [List.flatMap_cons, List.append_assoc,
      split_of_read? (Segment.read?_octets_append s hs _),
      ih (fun t ht ↦ h t (List.mem_cons_of_mem s ht)), List.cons_append]

theorem split_flatMap {path : List Segment} (h : ∀ s ∈ path, s.members.length ≤ 255) :
    split (path.flatMap Segment.octets) = (path, []) := by
  have hnil : split [] = ([], []) := split_of_read?_none rfl
  have hsplit := split_flatMap_append h []
  rwa [List.append_nil, hnil, List.append_nil] at hsplit

theorem split_spec (bs : Octets) :
    (∀ s ∈ (split bs).1, s.members.length ≤ 255) ∧
      bs = (split bs).1.flatMap Segment.octets ++ (split bs).2 := by
  fun_induction split bs with
  | case1 bs r h _ rest ih =>
    obtain ⟨hcount, hs⟩ := ih
    obtain ⟨hr, hbs⟩ := Segment.read?_eq_some h
    refine ⟨?_, ?_⟩
    · intro s hm
      rcases List.mem_cons.1 hm with rfl | hm
      · exact Nat.le_of_lt_succ hr
      · exact hcount s hm
    · rw [List.flatMap_cons, List.append_assoc, ← hs]
      exact hbs
  | case2 bs h => exact ⟨fun s hm ↦ (List.not_mem_nil hm).elim, by simp⟩

theorem isValid_iff (bs : Octets) : isValid bs = true ↔ IsWhole bs := by
  constructor
  · intro h
    obtain ⟨hcount, hs⟩ := split_spec bs
    rw [List.isEmpty_iff.1 h, List.append_nil] at hs
    exact ⟨_, hcount, hs⟩
  · rintro ⟨path, hcount, rfl⟩
    rw [isValid, split_flatMap hcount]
    rfl

end PathAttributes.AsPath
