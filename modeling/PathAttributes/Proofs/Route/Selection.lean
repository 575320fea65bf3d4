import PathAttributes.Proofs.Route.Preference

namespace PathAttributes.Route

variable {r s : Route} {rs ss : List Route}

structure IsOwn (r : Route) : Prop where
  origin : ∃ source, r.origin = .protocol source
  localPref : r.localPref = none

/-- A route that was learned with a preference from a peer whose identifier is known. -/
structure IsLearned (r : Route) : Prop where
  origin : ∃ peer, r.origin = .neighbor peer ∧ peer.identifier ≠ .unspecified
  localPref : ∃ n, r.localPref = some n

def IsHeld (r : Route) : Prop := r.IsLearned ∨ r.IsOwn

/-- The better of a route and a new one; the new one must be strictly better. -/
def keep (best new : Route) : Route := if new.isBetter best then new else best

def best (first : Route) (rest : List Route) : Route := rest.foldl keep first

/-- A number by which the routes that a speaker holds are ordered. No preference can lift a learned
route above those of the speaker's own. -/
def merit (r : Route) : Nat :=
  match r.localPref with
  | some n => n.toNat * 2 ^ 34 + r.standing
  | none => 2 ^ 32 * 2 ^ 34 + r.standing

theorem standing_le (r : Route) : r.standing ≤ 2 ^ 33 := by
  rw [standing]
  split <;> omega

theorem IsOwn.standing_eq (h : r.IsOwn) : r.standing = 2 ^ 33 := by
  obtain ⟨source, ho⟩ := h.origin
  simp only [standing, peerType, identifier, ho]
  rfl

theorem IsLearned.standing_lt (h : r.IsLearned) : r.standing < 2 ^ 33 := by
  obtain ⟨peer, ho, hid⟩ := h.origin
  have hne : peer.identifier.bits.toNat ≠ 0 :=
    fun he ↦ hid (Ipv4.ext (UInt32.toNat_inj.1 he))
  cases hp : peer.peerType with
  | internal =>
    simp only [standing, peerType, identifier, ho, hp]
    omega
  | external =>
    simp only [standing, peerType, identifier, ho, hp]
    omega

theorem IsLearned.merit_lt (hr : r.IsLearned) (hs : s.IsOwn) : r.merit < s.merit := by
  obtain ⟨n, hn⟩ := hr.localPref
  have hlt := n.toNat_lt
  have hle := r.standing_le
  simp only [merit, hn, hs.localPref]
  omega

theorem preference_eq_compare_merit (hr : r.IsHeld) (hs : s.IsHeld) :
    preference r s = compare r.merit s.merit := by
  have hrle := r.standing_le
  have hsle := s.standing_le
  rcases hr with hr | hr
  · obtain ⟨m, hm⟩ := hr.localPref
    rcases hs with hs | hs
    · obtain ⟨n, hn⟩ := hs.localPref
      have hr' : r.standing < 2 ^ 34 := by omega
      have hs' : s.standing < 2 ^ 34 := by omega
      rw [preference_of_some hm hn, compare_mul_add hr' hs']
      simp only [merit, hm, hn]
    · have hlt : r.standing < s.standing := by
        rw [hs.standing_eq]
        exact hr.standing_lt
      rw [preference_of_none (.inr hs.localPref), Nat.compare_eq_lt.2 hlt,
        Nat.compare_eq_lt.2 (hr.merit_lt hs)]
  · rcases hs with hs | hs
    · have hlt : s.standing < r.standing := by
        rw [hr.standing_eq]
        exact hs.standing_lt
      rw [preference_of_none (.inl hr.localPref), Nat.compare_eq_gt.2 hlt,
        Nat.compare_eq_gt.2 (hs.merit_lt hr)]
    · rw [preference_of_none (.inl hr.localPref)]
      simp only [merit, hr.localPref, hs.localPref, hr.standing_eq, hs.standing_eq]
      rfl

theorem isBetter_iff (r s : Route) : r.isBetter s = true ↔ preference r s = .gt := beq_iff_eq

theorem isBetter_iff_merit_lt (hr : r.IsHeld) (hs : s.IsHeld) :
    r.isBetter s = true ↔ s.merit < r.merit := by
  rw [isBetter_iff, preference_eq_compare_merit hr hs, Nat.compare_eq_gt]

theorem keep_spec (hr : r.IsHeld) (hs : s.IsHeld) :
    (keep r s = r ∨ keep r s = s) ∧ r.merit ≤ (keep r s).merit ∧ s.merit ≤ (keep r s).merit := by
  rw [keep]
  have hiff := isBetter_iff_merit_lt hs hr
  split
  · rename_i h
    exact ⟨.inr rfl, Nat.le_of_lt (hiff.1 h), Nat.le_refl _⟩
  · rename_i h
    rw [hiff] at h
    exact ⟨.inl rfl, Nat.le_refl _, Nat.le_of_not_lt h⟩

/-- Whichever candidate is kept to the end, none has more merit. -/
theorem best_spec (h : ∀ x ∈ r :: rs, x.IsHeld) :
    best r rs ∈ r :: rs ∧ ∀ x ∈ r :: rs, x.merit ≤ (best r rs).merit := by
  induction rs generalizing r with
  | nil =>
    refine ⟨List.mem_cons_self, ?_⟩
    intro x hx
    rw [List.mem_singleton.1 hx]
    exact Nat.le_refl _
  | cons s rs ih =>
    obtain ⟨hr, hrest⟩ := List.forall_mem_cons.1 h
    obtain ⟨hs, hrs⟩ := List.forall_mem_cons.1 hrest
    obtain ⟨hkept, hler, hles⟩ := keep_spec hr hs
    have hkeep : (keep r s).IsHeld := by
      rcases hkept with he | he
      · rwa [he]
      · rwa [he]
    obtain ⟨hmem, hle⟩ := ih (List.forall_mem_cons.2 ⟨hkeep, hrs⟩)
    obtain ⟨hfirst, hothers⟩ := List.forall_mem_cons.1 hle
    refine ⟨?_, ?_⟩
    · show best (keep r s) rs ∈ r :: s :: rs
      rcases List.mem_cons.1 hmem with hmem | hmem
      · rw [hmem]
        rcases hkept with he | he
        · rw [he]
          exact List.mem_cons_self
        · rw [he]
          exact List.mem_cons_of_mem r List.mem_cons_self
      · exact List.mem_cons_of_mem r (List.mem_cons_of_mem s hmem)
    · show ∀ x ∈ r :: s :: rs, x.merit ≤ (best (keep r s) rs).merit
      exact List.forall_mem_cons.2 ⟨Nat.le_trans hler hfirst,
        List.forall_mem_cons.2 ⟨Nat.le_trans hles hfirst, hothers⟩⟩

/-- The comparison is antisymmetric, and it orders the routes that a speaker holds: its own tie and
come before those that were learned. So the best of them does not depend on where one begins. -/
theorem preordered_of_isHeld :
    (∀ a b : Route, preference b a = (preference a b).swap) ∧
    (∀ a b : Route, preference a b ≠ .lt ∨ preference b a ≠ .lt) ∧
    (∀ a : Route, a.isBetter a = false) ∧
    (∀ a b : Route, a.isBetter b = true → b.isBetter a = false) ∧
    (∀ a b c : Route, a.IsHeld → b.IsHeld → c.IsHeld →
      preference a b ≠ .lt → preference b c ≠ .lt →
        preference a c ≠ .lt ∧
          (preference a b = .gt ∨ preference b c = .gt → preference a c = .gt)) ∧
    (∀ a b : Route, a.IsOwn → b.IsOwn → preference a b = .eq) ∧
    (∀ a b : Route, a.IsOwn → b.IsLearned → preference a b = .gt) ∧
    ∀ (first : Route) (rest : List Route), (∀ x ∈ first :: rest, x.IsHeld) →
      best first rest ∈ first :: rest ∧
      (∀ x ∈ first :: rest, x.isBetter (best first rest) = false) ∧
      ∀ (first' : Route) (rest' : List Route), (first :: rest).Perm (first' :: rest') →
        preference (best first rest) (best first' rest') = .eq := by
  refine ⟨fun a b ↦ (preference_swap a b).symm, ?_, ?_, ?_, ?_, ?_, ?_, ?_⟩
  · intro a b
    rw [← preference_swap a b]
    cases preference a b <;> decide
  · intro a
    rw [isBetter, preference_self]
    rfl
  · intro a b h
    rw [isBetter_iff] at h
    rw [isBetter, ← preference_swap, h]
    rfl
  · intro a b c ha hb hc
    rw [preference_eq_compare_merit ha hb, preference_eq_compare_merit hb hc,
      preference_eq_compare_merit ha hc]
    simp only [Nat.compare_ne_lt, Nat.compare_eq_gt]
    omega
  · intro a b ha hb
    rw [preference_of_none (.inl ha.localPref), ha.standing_eq, hb.standing_eq]
    rfl
  · intro a b ha hb
    rw [preference_eq_compare_merit (.inr ha) (.inl hb), Nat.compare_eq_gt]
    exact hb.merit_lt ha
  · intro first rest h
    obtain ⟨hmem, hle⟩ := best_spec h
    refine ⟨hmem, ?_, ?_⟩
    · intro x hx
      have hiff := isBetter_iff_merit_lt (h x hx) (h _ hmem)
      have hnot : ¬(best first rest).merit < x.merit := Nat.not_lt.2 (hle x hx)
      rw [← hiff, Bool.not_eq_true] at hnot
      exact hnot
    · intro first' rest' hperm
      have h' : ∀ x ∈ first' :: rest', x.IsHeld := fun x hx ↦ h x (hperm.mem_iff.2 hx)
      obtain ⟨hmem', hle'⟩ := best_spec h'
      have hge := hle _ (hperm.mem_iff.2 hmem')
      have hge' := hle' _ (hperm.mem_iff.1 hmem)
      rw [preference_eq_compare_merit (h _ hmem) (h' _ hmem'), Nat.compare_eq_eq]
      omega

def originated : Route := ⟨.protocol .static, .device, none, none, .empty⟩

theorem isLearned_learned (n : UInt32) (peerType : PeerType) {identifier : UInt32}
    (h : identifier ≠ 0) : (learned (some n) peerType identifier).IsLearned :=
  ⟨⟨_, rfl, fun he ↦ h (congrArg Ipv4.bits he)⟩, n, rfl⟩

theorem preordered_of_isHeld_three :
    originated.IsOwn ∧ (learned (some 200) .internal 2).IsLearned ∧
      (learned (some 100) .external 1).IsLearned ∧
      preference originated (learned (some 200) .internal 2) = .gt ∧
      preference originated (learned (some 100) .external 1) = .gt ∧
      preference
        (best (learned (some 100) .external 1) [learned (some 200) .internal 2, originated])
        (best originated [learned (some 200) .internal 2, learned (some 100) .external 1]) =
          .eq := by
  have hown : originated.IsOwn := ⟨⟨.static, rfl⟩, rfl⟩
  have hinternal := isLearned_learned 200 .internal (show (2 : UInt32) ≠ 0 by decide)
  have hexternal := isLearned_learned 100 .external (show (1 : UInt32) ≠ 0 by decide)
  obtain ⟨-, -, -, -, htrans, -, habove, hbest⟩ := preordered_of_isHeld
  have habove' := habove originated _ hown hinternal
  have hranked : preference (learned (some 200) .internal 2) (learned (some 100) .external 1) ≠
      .lt := by decide
  obtain ⟨-, hstrict⟩ := htrans originated _ _ (.inr hown) (.inl hinternal) (.inl hexternal)
    (by rw [habove']; decide) hranked
  refine ⟨hown, hinternal, hexternal, habove', hstrict (.inl habove'), ?_⟩
  obtain ⟨-, -, hperm⟩ := hbest (learned (some 100) .external 1)
    [learned (some 200) .internal 2, originated] (by simp [IsHeld, hown, hinternal, hexternal])
  exact hperm originated [learned (some 200) .internal 2, learned (some 100) .external 1]
    (List.reverse_perm [originated, learned (some 200) .internal 2, learned (some 100) .external 1])

end PathAttributes.Route
