import Mathlib.Data.List.Sort
import PathAttributes.IntSet

namespace PathAttributes.IntSet

variable {a b bs : Octets} {m n : UInt32} {ms ns : List UInt32}

/-- The four octets of a number stand in a string, behind a multiple of four octets. -/
def HasMember (bs : Octets) (m : UInt32) : Prop :=
  ∃ k, (bs.drop (4 * k)).take 4 = Octets.ofNat 4 m.toNat

structure SameMembers (a b : Octets) : Prop where
  left : 4 ∣ a.length
  right : 4 ∣ b.length
  members : ∀ m, HasMember a m ↔ HasMember b m

def HasRoom (bs : Octets) : Prop :=
  ∃ ms : List UInt32, 4 * ms.length ≤ Blob.limit ∧ ∀ m, HasMember bs m → m ∈ ms

theorem octets_cons (m : UInt32) (ms : List UInt32) :
    octets (m :: ms) = Octets.ofNat 4 m.toNat ++ octets ms := List.flatMap_cons

theorem length_octets (ms : List UInt32) : (octets ms).length = 4 * ms.length := by
  induction ms with
  | nil => rfl
  | cons m ms ih =>
    rw [octets_cons, List.length_append, Octets.length_ofNat, ih, List.length_cons]
    omega

theorem ofNat_toNat_inj : Octets.ofNat 4 m.toNat = Octets.ofNat 4 n.toNat ↔ m = n := by
  constructor
  · intro h
    have hn := congrArg Octets.toNat h
    have hc : Octets.count 4 = 2 ^ 32 := by decide
    rw [Octets.toNat_ofNat, Octets.toNat_ofNat, hc, Nat.mod_eq_of_lt m.toNat_lt,
      Nat.mod_eq_of_lt n.toNat_lt] at hn
    exact UInt32.toNat_inj.1 hn
  · exact fun h ↦ h ▸ rfl

theorem eq_octets_of_members? (h : members? bs = some ms) : bs = octets ms := by
  induction bs using members?.induct generalizing ms with
  | case1 =>
    cases h
    rfl
  | case2 a b c d bs ih =>
    obtain ⟨ns, hns, rfl⟩ := Option.map_eq_some_iff.1 h
    have hlt : Octets.toNat [a, b, c, d] < 2 ^ 32 := Octets.toNat_lt [a, b, c, d]
    have hback : Octets.ofNat 4 (Octets.toNat [a, b, c, d]) = [a, b, c, d] :=
      Octets.ofNat_toNat [a, b, c, d]
    rw [octets_cons, UInt32.toNat_ofNat_of_lt' hlt, hback, ← ih hns]
    rfl
  | case3 bs h₀ h₄ =>
    rw [members?] at h
    cases h
    all_goals assumption

theorem members?_octets (ms : List UInt32) : members? (octets ms) = some ms := by
  induction ms with
  | nil => rfl
  | cons m ms ih =>
    have hm : UInt32.ofNat (Octets.toNat (Octets.ofNat 4 m.toNat)) = m := by
      have hlt : m.toNat < Octets.count 4 := m.toNat_lt
      rw [Octets.toNat_ofNat, Nat.mod_eq_of_lt hlt, UInt32.ofNat_toNat]
    rw [octets_cons]
    simp only [Octets.ofNat, List.cons_append, List.nil_append, members?, ih] at hm ⊢
    rw [hm]
    rfl

theorem exists_members (h : 4 ∣ bs.length) : ∃ ms, bs = octets ms := by
  induction bs using members?.induct with
  | case1 => exact ⟨[], rfl⟩
  | case2 a b c d bs ih =>
    simp only [List.length_cons] at h
    obtain ⟨ms, hms⟩ := ih (by omega)
    refine ⟨UInt32.ofNat (Octets.toNat [a, b, c, d]) :: ms, eq_octets_of_members? ?_⟩
    rw [members?, hms, members?_octets]
    rfl
  | case3 bs h₀ h₄ =>
    match bs, h₀, h₄ with
    | [_], _, _ | [_, _], _, _ | [_, _, _], _, _ => simp at h
    | a :: b :: c :: d :: bs, _, h₄ => exact absurd rfl (h₄ a b c d bs)

theorem hasMember_octets : HasMember (octets ms) m ↔ m ∈ ms := by
  induction ms with
  | nil => simp [HasMember, octets, Octets.ofNat]
  | cons n ms ih =>
    have hn : (Octets.ofNat 4 n.toNat).length = 4 := Octets.length_ofNat 4 _
    have hfirst : (octets (n :: ms)).take 4 = Octets.ofNat 4 n.toNat := by
      rw [octets_cons, List.take_left' hn]
    have hrest (k : Nat) : (octets (n :: ms)).drop (4 * (k + 1)) = (octets ms).drop (4 * k) := by
      rw [octets_cons, Nat.mul_succ, Nat.add_comm, ← List.drop_drop, List.drop_left' hn]
    rw [List.mem_cons, ← ih]
    constructor
    · rintro ⟨_ | k, hk⟩
      · rw [Nat.mul_zero, List.drop_zero, hfirst, ofNat_toNat_inj] at hk
        exact .inl hk.symm
      · rw [hrest] at hk
        exact .inr ⟨k, hk⟩
    · rintro (rfl | ⟨k, hk⟩)
      · exact ⟨0, hfirst⟩
      · refine ⟨k + 1, ?_⟩
        rw [hrest]
        exact hk

def ordered (ms : List UInt32) : List UInt32 :=
  withoutRepeats (ms.mergeSort (fun m n ↦ decide (m ≤ n)))

theorem mem_withoutRepeats : m ∈ withoutRepeats ms ↔ m ∈ ms := by
  fun_induction withoutRepeats ms with
  | case1 | case2 => rfl
  | case3 b ms ih => simp [ih]
  | case4 a b ms h ih => simp [ih]

theorem pairwise_withoutRepeats (h : ms.Pairwise (· ≤ ·)) :
    (withoutRepeats ms).Pairwise (· < ·) := by
  fun_induction withoutRepeats ms with
  | case1 => exact .nil
  | case2 m => exact List.pairwise_singleton _ m
  | case3 n ms ih => exact ih (List.pairwise_cons.1 h).2
  | case4 m n ms hne ih =>
    obtain ⟨hm, hms⟩ := List.pairwise_cons.1 h
    refine List.pairwise_cons.2 ⟨fun k hk ↦ ?_, ih hms⟩
    have hmn : m < n := by
      have := hm n List.mem_cons_self
      grind
    rcases List.mem_cons.1 (mem_withoutRepeats.1 hk) with rfl | hk
    · exact hmn
    · have := (List.pairwise_cons.1 hms).1 k hk
      grind

theorem mem_ordered : m ∈ ordered ms ↔ m ∈ ms := by
  rw [ordered, mem_withoutRepeats, List.mem_mergeSort]

theorem pairwise_ordered (ms : List UInt32) : (ordered ms).Pairwise (· < ·) := by
  have hs := @List.pairwise_mergeSort UInt32 (fun m n ↦ decide (m ≤ n)) (by grind) (by grind) ms
  exact pairwise_withoutRepeats (hs.imp of_decide_eq_true)

theorem ordered_eq_iff : ordered ms = ordered ns ↔ ∀ m, m ∈ ms ↔ m ∈ ns := by
  constructor
  · intro h m
    rw [← mem_ordered, h, mem_ordered]
  · intro h
    refine (pairwise_ordered ms).eq_of_mem_iff (pairwise_ordered ns) (fun m ↦ ?_)
    rw [mem_ordered, mem_ordered, h]

theorem ordered_ordered (ms : List UInt32) : ordered (ordered ms) = ordered ms :=
  ordered_eq_iff.2 (fun _ ↦ mem_ordered)

theorem canonical_of_not_dvd (h : ¬4 ∣ bs.length) : canonical bs = bs := by
  have hn : members? bs = none := by
    cases hm : members? bs with
    | none => rfl
    | some ms =>
      rw [eq_octets_of_members? hm, length_octets] at h
      omega
  rw [canonical, hn]
  rfl

theorem canonical_octets (ms : List UInt32) :
    canonical (octets ms) =
      octets (if 4 * (ordered ms).length ≤ Blob.limit then ordered ms else ms) := by
  rw [canonical, members?_octets, Option.bind_some, Blob.ofOctets?, ← ordered, length_octets]
  split <;> rfl

theorem length_ordered_le (h : ∀ m ∈ ms, m ∈ ns) : (ordered ms).length ≤ ns.length :=
  (List.subperm_of_subset ((pairwise_ordered ms).imp (fun h ↦ by grind))
    (fun m hm ↦ h m (mem_ordered.1 hm))).length_le

theorem hasRoom_octets : HasRoom (octets ms) ↔ 4 * (ordered ms).length ≤ Blob.limit := by
  simp only [HasRoom, hasMember_octets]
  constructor
  · rintro ⟨ns, hns, hsub⟩
    have hle := length_ordered_le hsub
    omega
  · exact fun h ↦ ⟨ordered ms, h, fun m hm ↦ mem_ordered.2 hm⟩

theorem sameMembers_octets : SameMembers (octets ms) (octets ns) ↔ ∀ m, m ∈ ms ↔ m ∈ ns := by
  constructor
  · intro h m
    rw [← hasMember_octets, h.members, hasMember_octets]
  · intro h
    refine ⟨⟨_, length_octets ms⟩, ⟨_, length_octets ns⟩, fun m ↦ ?_⟩
    rw [hasMember_octets, hasMember_octets, h]

theorem octets_inj : octets ms = octets ns ↔ ms = ns := by
  constructor
  · intro h
    have hm := congrArg members? h
    rw [members?_octets, members?_octets] at hm
    exact Option.some.inj hm
  · exact fun h ↦ h ▸ rfl

theorem canonical_octets_eq_iff :
    canonical (octets ms) = canonical (octets ns) ↔
      ms = ns ∨ ordered ms = ordered ns ∧ 4 * (ordered ms).length ≤ Blob.limit := by
  have hm := ordered_ordered ms
  have hn := ordered_ordered ns
  rw [canonical_octets, canonical_octets, octets_inj]
  split <;> split <;> grind

theorem canonical_ne_of_dvd (ha : ¬4 ∣ a.length) (hb : 4 ∣ b.length) :
    canonical a ≠ canonical b := by
  obtain ⟨ms, rfl⟩ := exists_members hb
  rw [canonical_of_not_dvd ha, canonical_octets]
  intro h
  rw [h, length_octets] at ha
  omega

/-- Two strings have one canonical form if they are the same, or sets of the same members. -/
theorem canonical_eq_iff :
    canonical a = canonical b ↔ a = b ∨ SameMembers a b ∧ HasRoom a := by
  by_cases ha : 4 ∣ a.length <;> by_cases hb : 4 ∣ b.length
  · obtain ⟨ms, rfl⟩ := exists_members ha
    obtain ⟨ns, rfl⟩ := exists_members hb
    rw [canonical_octets_eq_iff, sameMembers_octets, hasRoom_octets, octets_inj, ordered_eq_iff]
  · refine iff_of_false (canonical_ne_of_dvd hb ha).symm ?_
    rintro (rfl | ⟨h, -⟩)
    · exact hb ha
    · exact hb h.right
  · refine iff_of_false (canonical_ne_of_dvd ha hb) ?_
    rintro (rfl | ⟨h, -⟩)
    · exact ha hb
    · exact ha h.left
  · rw [canonical_of_not_dvd ha, canonical_of_not_dvd hb]
    refine ⟨.inl, ?_⟩
    rintro (h | ⟨h, -⟩)
    · exact h
    · exact absurd h.left ha

theorem length_canonical_le (h : bs.length ≤ Blob.limit) :
    (canonical bs).length ≤ Blob.limit := by
  by_cases hd : 4 ∣ bs.length
  · obtain ⟨ms, rfl⟩ := exists_members hd
    rw [canonical_octets]
    split
    · rwa [length_octets]
    · exact h
  · rwa [canonical_of_not_dvd hd]

theorem hasRoom_of_length_le (hd : 4 ∣ bs.length) (h : bs.length ≤ Blob.limit) :
    HasRoom bs := by
  obtain ⟨ms, rfl⟩ := exists_members hd
  rw [length_octets] at h
  exact ⟨ms, h, fun m ↦ hasMember_octets.1⟩

theorem canonical_canonical (bs : Octets) : canonical (canonical bs) = canonical bs := by
  by_cases hd : 4 ∣ bs.length
  · obtain ⟨ms, rfl⟩ := exists_members hd
    rw [canonical_octets]
    split
    · rename_i h
      rw [canonical_octets, ordered_ordered, if_pos h]
    · rename_i h
      rw [canonical_octets, if_neg h]
  · rw [canonical_of_not_dvd hd, canonical_of_not_dvd hd]

/-- A set that can be sent is written with its members in ascending order, and takes no more room
than before. -/
theorem exists_canonical_eq (hd : 4 ∣ bs.length) (h : bs.length ≤ Blob.limit) :
    ∃ ms : List UInt32, canonical bs = octets ms ∧ ms.Pairwise (· < ·) ∧
      (∀ m, m ∈ ms ↔ HasMember bs m) ∧ (octets ms).length ≤ bs.length := by
  obtain ⟨ms, rfl⟩ := exists_members hd
  have hle : (ordered ms).length ≤ ms.length := length_ordered_le (fun _ hm ↦ hm)
  rw [length_octets] at h
  refine ⟨ordered ms, ?_, pairwise_ordered ms, ?_, ?_⟩
  · rw [canonical_octets, if_pos (by omega)]
  · exact fun m ↦ mem_ordered.trans hasMember_octets.symm
  · rw [length_octets, length_octets]
    omega

end PathAttributes.IntSet
