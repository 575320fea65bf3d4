import PathAttributes.Proofs.AsPath.Extended

namespace PathAttributes.AsPath

variable {path : List Segment} {asn : Asn}

def prependAll? (bs : Octets) (asns : List Asn) : Option Octets := asns.foldlM prepend? bs

def prependedAll (asns : List Asn) (path : List Segment) : List Segment :=
  asns.foldl (fun path asn ↦ prepended asn path) path

/-- Sequences none of which is empty, and all of which are full but the first. -/
structure Dense (path : List Segment) : Prop where
  sequence : ∀ s ∈ path, s.kind = .sequence
  nonempty : ∀ s ∈ path, s.members ≠ []
  counted : ∀ s ∈ path, s.members.length ≤ 255
  full : ∀ s ∈ path.tail, s.members.length = 255

def denseLength (members : Nat) : Nat := 2 * members + 2 * ((members + 254) / 255)

theorem denseLength_mono {m n : Nat} (h : m ≤ n) : denseLength m ≤ denseLength n := by
  simp only [denseLength]
  omega

namespace Dense

theorem nil : Dense [] := ⟨by simp, by simp, by simp, by simp⟩

theorem prepended (h : Dense path) (asn : Asn) : Dense (prepended asn path) := by
  cases path with
  | nil => exact ⟨by simp [AsPath.prepended], by simp [AsPath.prepended],
      by simp [AsPath.prepended], by simp [AsPath.prepended]⟩
  | cons s path =>
    obtain ⟨hkind, hkinds⟩ := List.forall_mem_cons.1 h.sequence
    obtain ⟨hne, hnes⟩ := List.forall_mem_cons.1 h.nonempty
    obtain ⟨hcount, hcounts⟩ := List.forall_mem_cons.1 h.counted
    have hfull : ∀ t ∈ path, t.members.length = 255 := h.full
    rw [AsPath.prepended]
    split
    · rename_i hroom
      refine ⟨List.forall_mem_cons.2 ⟨rfl, hkinds⟩, List.forall_mem_cons.2 ⟨?_, hnes⟩,
        List.forall_mem_cons.2 ⟨hroom.2, hcounts⟩, hfull⟩
      exact List.cons_ne_nil asn s.members
    · rename_i hroom
      -- A first segment without room is full, and may stand behind another one.
      have hlength : s.members.length = 255 := by
        have hle : ¬s.members.length < 255 := fun hlt ↦ hroom ⟨hkind, hlt⟩
        omega
      refine ⟨List.forall_mem_cons.2 ⟨rfl, h.sequence⟩, List.forall_mem_cons.2 ⟨?_, h.nonempty⟩,
        List.forall_mem_cons.2 ⟨?_, h.counted⟩, List.forall_mem_cons.2 ⟨hlength, hfull⟩⟩
      · exact List.cons_ne_nil asn []
      · exact Nat.le_of_ble_eq_true rfl

theorem prependedAll (h : Dense path) (asns : List Asn) : Dense (prependedAll asns path) := by
  induction asns generalizing path with
  | nil => exact h
  | cons asn asns ih => exact ih (h.prepended asn)

/-- So many members as there are take no more segments than they must. -/
theorem length_eq (h : Dense path) :
    path.length = ((path.flatMap Segment.members).length + 254) / 255 := by
  cases path with
  | nil => rfl
  | cons s path =>
    have hcount := h.counted s List.mem_cons_self
    have hpos := List.length_pos_iff.2 (h.nonempty s List.mem_cons_self)
    have htail : (path.flatMap Segment.members).length = path.length * 255 := by
      have hfull : ∀ n ∈ path.map (fun t ↦ t.members.length), n = 255 := by
        intro n hn
        obtain ⟨t, ht, rfl⟩ := List.mem_map.1 hn
        exact h.full t ht
      rw [List.length_flatMap, List.eq_replicate_of_mem hfull, List.length_map]
      simp
    rw [List.flatMap_cons, List.length_append, List.length_cons, htail]
    omega

end Dense

theorem length_flatMap_octets (path : List Segment) :
    (path.flatMap Segment.octets).length =
      2 * (path.flatMap Segment.members).length + 2 * path.length := by
  have hmembers (ms : List Asn) : (ms.flatMap Asn.octets).length = 2 * ms.length := by
    induction ms with
    | nil => rfl
    | cons m ms ih =>
      rw [List.flatMap_cons, List.length_append, ih, Asn.octets, Octets.length_ofNat,
        List.length_cons]
      omega
  induction path with
  | nil => rfl
  | cons s path ih =>
    simp only [List.flatMap_cons, List.length_append, List.length_cons, Segment.octets, ih,
      hmembers]
    omega

theorem Dense.length_octets (h : Dense path) :
    (path.flatMap Segment.octets).length =
      denseLength (path.flatMap Segment.members).length := by
  rw [length_flatMap_octets, h.length_eq, denseLength]

theorem flatMap_members_prependedAll (asns : List Asn) (path : List Segment) :
    (prependedAll asns path).flatMap Segment.members =
      asns.reverse ++ path.flatMap Segment.members := by
  induction asns generalizing path with
  | nil => rfl
  | cons asn asns ih =>
    have hstep := ih (prepended asn path)
    rw [flatMap_members_prepended] at hstep
    rw [List.reverse_cons, List.append_assoc]
    exact hstep

theorem prepend?_flatMap (h : ∀ s ∈ path, s.members.length ≤ 255) (asn : Asn) :
    prepend? (path.flatMap Segment.octets) asn =
      Blob.ofOctets? ((prepended asn path).flatMap Segment.octets) := by
  rw [prepend?, extended_flatMap h]

/-- A run of prepending fails at no step before the one at which a densely packed path is too
long. -/
theorem Dense.prependAll?_eq (h : Dense path)
    (hl : denseLength (path.flatMap Segment.members).length ≤ Blob.limit) (asns : List Asn) :
    prependAll? (path.flatMap Segment.octets) asns =
      if denseLength ((path.flatMap Segment.members).length + asns.length) ≤ Blob.limit then
        some ((AsPath.prependedAll asns path).flatMap Segment.octets)
      else none := by
  induction asns generalizing path with
  | nil =>
    rw [List.length_nil, Nat.add_zero, if_pos hl]
    rfl
  | cons asn asns ih =>
    have hnext := h.prepended asn
    have hstep : prependAll? (path.flatMap Segment.octets) (asn :: asns) =
        (Blob.ofOctets? ((AsPath.prepended asn path).flatMap Segment.octets)).bind
          (prependAll? · asns) := by
      rw [← prepend?_flatMap h.counted]
      rfl
    have hlength := hnext.length_octets
    have hcount : ((AsPath.prepended asn path).flatMap Segment.members).length =
        (path.flatMap Segment.members).length + 1 := by
      rw [flatMap_members_prepended, List.length_cons]
    rw [hcount] at hlength
    have hsum : (path.flatMap Segment.members).length + (asn :: asns).length =
        (path.flatMap Segment.members).length + 1 + asns.length := by
      rw [List.length_cons]
      omega
    rw [hstep, hsum, Blob.ofOctets?, hlength]
    by_cases hfits : denseLength ((path.flatMap Segment.members).length + 1) ≤ Blob.limit
    · have hrest := ih hnext (hcount ▸ hfits)
      rw [hcount] at hrest
      rw [if_pos hfits, Option.bind_some, hrest]
      rfl
    · have hmono := denseLength_mono
        (Nat.le_add_right ((path.flatMap Segment.members).length + 1) asns.length)
      have hlong : ¬denseLength ((path.flatMap Segment.members).length + 1 + asns.length) ≤
          Blob.limit := by omega
      rw [if_neg hfits, if_neg hlong, Option.bind_none]

/-- AS numbers that are prepended one after the other to the empty path fill its segments, and fail
to fit only where there are too many of them for any path. -/
theorem dense_of_prependAll? (asns : List Asn) :
    ((∃ bs, prependAll? [] asns = some bs) ↔
      2 * asns.length + 2 * ((asns.length + 254) / 255) ≤ 65535) ∧
    (2 * asns.length + 2 * ((asns.length + 254) / 255) ≤ 65535 ↔ asns.length ≤ 32639) ∧
    ∀ bs, prependAll? [] asns = some bs →
      bs.length = 2 * asns.length + 2 * ((asns.length + 254) / 255) ∧
      check bs = .ok () ∧
      (segments bs).length = (asns.length + 254) / 255 ∧
      (∀ s ∈ segments bs, s.kind = .sequence ∧ s.members ≠ []) ∧
      (∀ s ∈ (segments bs).tail, s.members.length = 255) ∧
      (segments bs).flatMap Segment.members = asns.reverse ∧
      pathLength bs = asns.length := by
  have hrun : prependAll? [] asns =
      if denseLength (0 + asns.length) ≤ Blob.limit then
        some ((prependedAll asns []).flatMap Segment.octets)
      else none :=
    Dense.nil.prependAll?_eq (by decide) asns
  rw [Nat.zero_add] at hrun
  refine ⟨?_, by omega, ?_⟩
  · rw [hrun]
    constructor
    · intro ⟨bs, h⟩
      split at h
      · assumption
      · cases h
    · intro h
      exact ⟨_, if_pos h⟩
  · intro bs h
    rw [hrun] at h
    split at h
    · cases h
      have hdense := Dense.nil.prependedAll asns
      have hmembers : (prependedAll asns []).flatMap Segment.members = asns.reverse :=
        (flatMap_members_prependedAll asns []).trans (List.append_nil _)
      have hlength : ((prependedAll asns []).flatMap Segment.members).length = asns.length := by
        rw [hmembers, List.length_reverse]
      have hsplit := split_flatMap hdense.counted
      have hsegments : segments ((prependedAll asns []).flatMap Segment.octets) =
          prependedAll asns [] := congrArg Prod.fst hsplit
      have hvalid : isValid ((prependedAll asns []).flatMap Segment.octets) = true := by
        rw [isValid, hsplit]
        rfl
      have hweight : pathLength ((prependedAll asns []).flatMap Segment.octets) =
          totalWeight (prependedAll asns []) := congrArg totalWeight hsegments
      rw [hweight, totalWeight_of_sequences hdense.sequence, hsegments, hdense.length_octets,
        hdense.length_eq, hlength]
      exact ⟨rfl, (check_eq_ok_iff _).2 hvalid, rfl,
        fun s hs ↦ ⟨hdense.sequence s hs, hdense.nonempty s hs⟩, hdense.full, hmembers, rfl⟩
    · cases h

/-- Of 256 times the same number one stands alone in front of a full segment. -/
theorem dense_of_prependAll?_replicate :
    ∃ bs, prependAll? [] (List.replicate 256 65000) = some bs ∧ bs.length = 516 ∧
      check bs = .ok () ∧ (segments bs).length = 2 ∧
      (∀ s ∈ segments bs, s.kind = .sequence ∧ s.members ≠ []) ∧
      (∀ s ∈ (segments bs).tail, s.members.length = 255) ∧
      (segments bs).flatMap Segment.members = (List.replicate 256 65000).reverse ∧
      pathLength bs = 256 := by
  have h := dense_of_prependAll? (List.replicate 256 65000)
  rw [List.length_replicate] at h
  obtain ⟨hfits, -, hdense⟩ := h
  obtain ⟨bs, hbs⟩ := hfits.2 (by decide)
  exact ⟨bs, hbs, hdense bs hbs⟩

end PathAttributes.AsPath
