import Mathlib.Data.Set.Defs
import Mathlib.Data.UInt
import Mathlib.Logic.Relation
import Mathlib.Tactic.ByContra
import PathAttributes.Route.Preference

namespace PathAttributes.Route

def compareStanding (r s : Route) : Ordering :=
  (comparePeerType r s).then (compare s.identifier r.identifier)

def standing (r : Route) : Nat :=
  match r.peerType with
  | .external => 2 * 2 ^ 32 - r.identifier.bits.toNat
  | .internal => 2 ^ 32 - r.identifier.bits.toNat

/-- Of two routes the first has the higher preference, but a third one without a preference comes
from a peer that is no better than that of the second and no worse than that of the first. -/
structure Discordant (r s t : Route) : Prop where
  preferred : ∃ m n, r.localPref = some m ∧ s.localPref = some n ∧ n < m
  without : t.localPref = none
  below : compareStanding s t ≠ .lt
  above : compareStanding t r ≠ .lt

/-- Each of three routes is no worse than the next, the first one following on the last, and one of
them is better. -/
structure Circular (a b c : Route) : Prop where
  first : preference a b ≠ .lt
  second : preference b c ≠ .lt
  third : preference c a ≠ .lt
  strict : preference a b = .gt ∨ preference b c = .gt ∨ preference c a = .gt

/-- From some candidate one comes, by candidates each of which is no better than the one before, to
one that is preferred to it. -/
def HasCycle (candidates : Set Route) : Prop :=
  ∃ r ∈ candidates, ∃ s ∈ candidates, preference r s = .gt ∧
    Relation.ReflTransGen
      (fun x y ↦ x ∈ candidates ∧ y ∈ candidates ∧ preference x y ≠ .lt) s r

theorem compareStanding_eq (r s : Route) :
    compareStanding r s = compare r.standing s.standing := by
  have hr := r.identifier.bits.toNat_lt
  have hs := s.identifier.bits.toNat_lt
  rw [compareStanding, comparePeerType, Ipv4.compare_eq]
  cases hp : r.peerType <;> cases hq : s.peerType <;> simp only [standing, hp, hq, Ordering.then]
  · simp only [compare, compareOfLessAndEq]
    grind
  · exact (Nat.compare_eq_lt.2 (by omega)).symm
  · exact (Nat.compare_eq_gt.2 (by omega)).symm
  · simp only [compare, compareOfLessAndEq]
    grind

theorem preference_eq (r s : Route) :
    preference r s = (compareLocalPref r s).then (compare r.standing s.standing) := by
  rw [← compareStanding_eq, preference, compareStanding]
  cases compareLocalPref r s <;> rfl

theorem preference_of_none {r s : Route} (h : r.localPref = none ∨ s.localPref = none) :
    preference r s = compare r.standing s.standing := by
  have hl : compareLocalPref r s = .eq := by
    rcases h with h | h <;> simp [compareLocalPref, h]
  rw [preference_eq, hl, Ordering.then]

theorem preference_of_some {r s : Route} {m n : UInt32} (hr : r.localPref = some m)
    (hs : s.localPref = some n) :
    preference r s = (compare m.toNat n.toNat).then (compare r.standing s.standing) := by
  have hl : compareLocalPref r s = compare m.toNat n.toNat := by
    simp only [compareLocalPref, hr, hs]
    exact UInt32.compare_eq_toNat_compare_toNat m n
  rw [preference_eq, hl]

theorem preference_ne_lt_iff_of_none {r s : Route} (h : r.localPref = none ∨ s.localPref = none) :
    preference r s ≠ .lt ↔ s.standing ≤ r.standing := by
  rw [preference_of_none h, Nat.compare_ne_lt]

theorem preference_eq_gt_iff_of_none {r s : Route} (h : r.localPref = none ∨ s.localPref = none) :
    preference r s = .gt ↔ s.standing < r.standing := by
  rw [preference_of_none h, Nat.compare_eq_gt]

theorem preference_ne_lt_iff_of_some {r s : Route} {m n : UInt32} (hr : r.localPref = some m)
    (hs : s.localPref = some n) :
    preference r s ≠ .lt ↔
      n.toNat < m.toNat ∨ m.toNat = n.toNat ∧ s.standing ≤ r.standing := by
  rw [preference_of_some hr hs, ne_eq, Ordering.then_eq_lt, Nat.compare_eq_lt, Nat.compare_eq_eq,
    Nat.compare_eq_lt]
  omega

theorem preference_eq_gt_iff_of_some {r s : Route} {m n : UInt32} (hr : r.localPref = some m)
    (hs : s.localPref = some n) :
    preference r s = .gt ↔
      n.toNat < m.toNat ∨ m.toNat = n.toNat ∧ s.standing < r.standing := by
  rw [preference_of_some hr hs, Ordering.then_eq_gt, Nat.compare_eq_gt, Nat.compare_eq_eq,
    Nat.compare_eq_gt]

theorem preference_self (r : Route) : preference r r = .eq := by
  have hl : compareLocalPref r r = .eq := by
    cases h : r.localPref <;> simp [compareLocalPref, h, compare, compareOfLessAndEq]
  rw [preference_eq, hl, Ordering.then, Nat.compare_eq_eq]

theorem preference_swap (r s : Route) : (preference r s).swap = preference s r := by
  cases hr : r.localPref with
  | none => rw [preference_of_none (.inl hr), preference_of_none (.inr hr), Nat.compare_swap]
  | some m =>
    cases hs : s.localPref with
    | none => rw [preference_of_none (.inr hs), preference_of_none (.inl hs), Nat.compare_swap]
    | some n =>
      rw [preference_of_some hr hs, preference_of_some hs hr, Ordering.swap_then,
        Nat.compare_swap, Nat.compare_swap]

theorem preference_eq_gt_iff_lt (r s : Route) : preference r s = .gt ↔ preference s r = .lt := by
  rw [← preference_swap r s, Ordering.swap_eq_lt]

theorem discordant_iff {r s t : Route} :
    Discordant r s t ↔
      (∃ m n, r.localPref = some m ∧ s.localPref = some n ∧ n.toNat < m.toNat) ∧
        t.localPref = none ∧ t.standing ≤ s.standing ∧ r.standing ≤ t.standing := by
  simp only [← Nat.compare_ne_lt, ← compareStanding_eq, ← UInt32.lt_iff_toNat_lt]
  exact ⟨fun h ↦ ⟨h.preferred, h.without, h.below, h.above⟩,
    fun ⟨hp, hw, hb, ha⟩ ↦ ⟨hp, hw, hb, ha⟩⟩

theorem Discordant.preference_eq_gt {r s t : Route} (h : Discordant r s t) :
    preference r s = .gt := by
  obtain ⟨⟨m, n, hm, hn, hlt⟩, -⟩ := discordant_iff.1 h
  exact (preference_eq_gt_iff_of_some hm hn).2 (.inl hlt)

theorem Discordant.circular {a b c : Route} (h : Discordant a b c) : Circular a b c := by
  have hab := h.preference_eq_gt
  obtain ⟨-, hc, hcb, hac⟩ := discordant_iff.1 h
  exact {
    first := by simp [hab]
    second := (preference_ne_lt_iff_of_none (.inr hc)).2 hcb
    third := (preference_ne_lt_iff_of_none (.inl hc)).2 hac
    strict := .inl hab }

namespace Circular

variable {a b c : Route}

theorem rotate (h : Circular a b c) : Circular b c a :=
  ⟨h.second, h.third, h.first, or_rotate.1 h.strict⟩

/-- With preferences all around they would be equal, and then so would the standings. -/
theorem exists_localPref_eq_none (h : Circular a b c) :
    a.localPref = none ∨ b.localPref = none ∨ c.localPref = none := by
  by_contra hnone
  simp only [not_or, Option.ne_none_iff_exists'] at hnone
  obtain ⟨⟨m, hm⟩, ⟨n, hn⟩, ⟨k, hk⟩⟩ := hnone
  have hab := (preference_ne_lt_iff_of_some hm hn).1 h.first
  have hbc := (preference_ne_lt_iff_of_some hn hk).1 h.second
  have hca := (preference_ne_lt_iff_of_some hk hm).1 h.third
  have hstrict := h.strict
  rw [preference_eq_gt_iff_of_some hm hn, preference_eq_gt_iff_of_some hn hk,
    preference_eq_gt_iff_of_some hk hm] at hstrict
  omega

/-- Around a route without a preference the standings only fall, so that the other two can come in a
circle only by their preferences. -/
theorem discordant (h : Circular a b c) (hc : c.localPref = none) : Discordant a b c := by
  have hcb := (preference_ne_lt_iff_of_none (.inr hc)).1 h.second
  have hac := (preference_ne_lt_iff_of_none (.inl hc)).1 h.third
  have hstrict : preference a b = .gt ∨ c.standing < b.standing ∨ a.standing < c.standing := by
    rw [← preference_eq_gt_iff_of_none (.inr hc), ← preference_eq_gt_iff_of_none (.inl hc)]
    exact h.strict
  by_cases hab : a.localPref = none ∨ b.localPref = none
  · have hba := (preference_ne_lt_iff_of_none hab).1 h.first
    rw [preference_eq_gt_iff_of_none hab] at hstrict
    omega
  · simp only [not_or, Option.ne_none_iff_exists'] at hab
    obtain ⟨⟨m, hm⟩, ⟨n, hn⟩⟩ := hab
    have hmn := (preference_ne_lt_iff_of_some hm hn).1 h.first
    rw [preference_eq_gt_iff_of_some hm hn] at hstrict
    have hlt : n.toNat < m.toNat := by omega
    exact discordant_iff.2 ⟨⟨m, n, hm, hn, hlt⟩, hc, hcb, hac⟩

end Circular

theorem circular_iff {a b c : Route} :
    Circular a b c ↔ Discordant a b c ∨ Discordant b c a ∨ Discordant c a b := by
  constructor
  · intro h
    rcases h.exists_localPref_eq_none with ha | hb | hc
    · exact .inr (.inl (h.rotate.discordant ha))
    · exact .inr (.inr (h.rotate.rotate.discordant hb))
    · exact .inl (h.discordant hc)
  · rintro (h | h | h)
    · exact h.circular
    · exact h.circular.rotate.rotate
    · exact h.circular.rotate

/-- Three routes of which each is no worse than the next are in order, unless one without a
preference closes a circle with two that have preferences. -/
theorem trans_iff {a b c : Route} (hab : preference a b ≠ .lt) (hbc : preference b c ≠ .lt) :
    (preference a c ≠ .lt ∧
        (preference a b = .gt ∨ preference b c = .gt → preference a c = .gt)) ↔
      ¬(Discordant a b c ∨ Discordant b c a ∨ Discordant c a b) := by
  rw [← circular_iff]
  constructor
  · rintro ⟨hne, hgt⟩ h
    have hac : preference a c ≠ .gt := fun he ↦ h.third ((preference_eq_gt_iff_lt a c).1 he)
    rcases h.strict with hs | hs | hs
    · exact hac (hgt (.inl hs))
    · exact hac (hgt (.inr hs))
    · exact hne ((preference_eq_gt_iff_lt c a).1 hs)
  · intro h
    have hca : preference c a ≠ .gt := fun hs ↦ h ⟨hab, hbc, by simp [hs], .inr (.inr hs)⟩
    refine ⟨fun hac ↦ hca ((preference_eq_gt_iff_lt c a).2 hac), fun hs ↦ ?_⟩
    by_contra hac
    have hne : preference c a ≠ .lt := fun he ↦ hac ((preference_eq_gt_iff_lt a c).2 he)
    exact h ⟨hab, hbc, hne, hs.imp_right .inl⟩

theorem preference_ne_lt_of_chain {candidates : Set Route} {r s : Route}
    (hd : ∀ x ∈ candidates, ∀ y ∈ candidates, ∀ z ∈ candidates, ¬Discordant x y z)
    (hr : r ∈ candidates)
    (h : Relation.ReflTransGen
      (fun x y ↦ x ∈ candidates ∧ y ∈ candidates ∧ preference x y ≠ .lt) r s) :
    preference r s ≠ .lt := by
  induction h with
  | refl => simp [preference_self]
  | @tail s t _ hst ih =>
    obtain ⟨hs, ht, hle⟩ := hst
    refine ((trans_iff ih hle).2 ?_).1
    rintro (h | h | h)
    · exact hd r hr s hs t ht h
    · exact hd s hs t ht r hr h
    · exact hd t ht r hr s hs h

theorem hasCycle_iff (candidates : Set Route) :
    HasCycle candidates ↔
      ∃ r ∈ candidates, ∃ s ∈ candidates, ∃ t ∈ candidates, Discordant r s t := by
  constructor
  · rintro ⟨r, hr, s, hs, hrs, hchain⟩
    by_contra hd
    have hsr : preference s r ≠ .lt :=
      preference_ne_lt_of_chain (fun x hx y hy z hz h ↦ hd ⟨x, hx, y, hy, z, hz, h⟩) hs hchain
    exact hsr ((preference_eq_gt_iff_lt r s).1 hrs)
  · rintro ⟨r, hr, s, hs, t, ht, h⟩
    have hc := h.circular
    exact ⟨r, hr, s, hs, h.preference_eq_gt,
      .tail (.single ⟨hs, ht, hc.second⟩) ⟨ht, hr, hc.third⟩⟩

/-- Three routes, each no worse than the next, are in order unless they are discordant as they
follow, from whichever one begins. Among candidates there is a cycle exactly if some three are
discordant, as they cannot be if all have a preference or all have none. -/
theorem ordered_iff_not_discordant :
    (∀ a b c : Route, preference a b ≠ .lt → preference b c ≠ .lt →
      ((preference a c ≠ .lt ∧
          (preference a b = .gt ∨ preference b c = .gt → preference a c = .gt)) ↔
        ¬(Discordant a b c ∨ Discordant b c a ∨ Discordant c a b))) ∧
    (∀ candidates : Set Route, HasCycle candidates ↔
      ∃ r ∈ candidates, ∃ s ∈ candidates, ∃ t ∈ candidates, Discordant r s t) ∧
    (∀ candidates : Set Route,
      (∀ r ∈ candidates, r.localPref ≠ none) ∨ (∀ r ∈ candidates, r.localPref = none) →
        ¬HasCycle candidates) := by
  refine ⟨fun a b c hab hbc ↦ trans_iff hab hbc, hasCycle_iff, ?_⟩
  intro candidates h hcycle
  obtain ⟨r, hr, s, hs, t, ht, hd⟩ := (hasCycle_iff candidates).1 hcycle
  rcases h with h | h
  · exact h t ht hd.without
  · obtain ⟨m, n, hm, -⟩ := hd.preferred
    rw [h r hr] at hm
    cases hm

def learned (localPref : Option UInt32) (peerType : PeerType) (identifier : UInt32) : Route :=
  ⟨.neighbor ⟨⟨identifier⟩, peerType, 65000, ⟨identifier⟩⟩, .router, none, none,
    .ofList (localPref.map (fun n ↦ Attr.bgp .localPref (.int n))).toList⟩

theorem ordered_around_no_preference :
    preference (learned (some 200) .external 1) (learned none .external 2) ≠ .lt ∧
      preference (learned none .external 2) (learned (some 100) .internal 3) ≠ .lt ∧
      preference (learned (some 200) .external 1) (learned (some 100) .internal 3) = .gt ∧
      ¬HasCycle {r | r.localPref ≠ none} := by
  have hab : preference (learned (some 200) .external 1) (learned none .external 2) ≠ .lt := by
    decide
  have hbc : preference (learned none .external 2) (learned (some 100) .internal 3) ≠ .lt := by
    decide
  have hd : ¬(Discordant (learned (some 200) .external 1) (learned none .external 2)
      (learned (some 100) .internal 3) ∨ Discordant (learned none .external 2)
      (learned (some 100) .internal 3) (learned (some 200) .external 1) ∨
      Discordant (learned (some 100) .internal 3) (learned (some 200) .external 1)
      (learned none .external 2)) := by
    rintro (h | h | h)
    · exact absurd h.without (by decide)
    · exact absurd h.without (by decide)
    · exact absurd h.preference_eq_gt (by decide)
  obtain ⟨-, hac⟩ := (ordered_iff_not_discordant.1 _ _ _ hab hbc).2 hd
  exact ⟨hab, hbc, hac (.inl (by decide)), ordered_iff_not_discordant.2.2 _ (.inl fun _ h ↦ h)⟩

/-- Routes with the preferences 100 and 200 on both sides of one without. -/
theorem not_ordered :
    (preference (learned (some 100) .external 1) (learned none .internal 2) = .gt ∧
        preference (learned none .internal 2) (learned (some 200) .internal 3) = .gt ∧
        preference (learned (some 200) .internal 3) (learned (some 100) .external 1) = .gt) ∧
      ¬∀ a b c : Route, preference a b ≠ .lt → preference b c ≠ .lt →
        preference a c ≠ .lt ∧
          (preference a b = .gt ∨ preference b c = .gt → preference a c = .gt) := by
  refine ⟨by decide, fun h ↦ ?_⟩
  obtain ⟨hac, -⟩ := h (learned (some 100) .external 1) (learned none .internal 2)
    (learned (some 200) .internal 3) (by decide) (by decide)
  exact hac (by decide)

end PathAttributes.Route
