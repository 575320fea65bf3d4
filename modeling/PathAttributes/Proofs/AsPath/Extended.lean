import PathAttributes.AsPath.Prepend
import PathAttributes.Proofs.AsPath.Whole

namespace PathAttributes.AsPath

variable {bs : Octets} {asn : Asn} {r : Segment × Octets}

/-- A path with one more AS in front, as segments: in the first of them if it is a sequence with
fewer than 255 members, and else in a sequence of its own. -/
def prepended (asn : Asn) : List Segment → List Segment
  | [] => [⟨.sequence, [asn]⟩]
  | s :: path =>
    if s.kind = .sequence ∧ s.members.length < 255 then ⟨.sequence, asn :: s.members⟩ :: path
    else ⟨.sequence, [asn]⟩ :: s :: path

theorem hasRoom_iff (bs : Octets) :
    hasRoom bs = true ↔ ∃ n rest, bs = 2 :: n :: rest ∧ n.toNat < 255 := by
  match bs with
  | [] | [_] => simp [hasRoom]
  | k :: n :: rest =>
    simp only [hasRoom, Bool.and_eq_true, decide_eq_true_eq]
    constructor
    · rintro ⟨rfl, hn⟩
      exact ⟨n, rest, rfl, hn⟩
    · rintro ⟨n', rest', he, hn⟩
      cases he
      exact ⟨rfl, hn⟩

theorem hasRoom_octets (s : Segment) (hs : s.members.length < 256) (rest : Octets) :
    hasRoom (s.octets ++ rest) = true ↔ s.kind = .sequence ∧ s.members.length < 255 := by
  have hn : (UInt8.ofNat s.members.length).toNat = s.members.length :=
    UInt8.toNat_ofNat_of_lt' hs
  have hk : Numbered.code s.kind = Numbered.code SegmentKind.sequence ↔ s.kind = .sequence :=
    ⟨Numbered.code_injective, congrArg Numbered.code⟩
  simp only [Segment.octets, List.cons_append, hasRoom, Bool.and_eq_true, decide_eq_true_eq, hn, hk,
    segmentLimit]

theorem extended_of_not_hasRoom (h : hasRoom bs = false) (asn : Asn) :
    extended bs asn = Segment.octets ⟨.sequence, [asn]⟩ ++ bs := by
  match bs with
  | [] | [_] => rfl
  | k :: n :: rest =>
    rw [extended, h]
    rfl

theorem read?_extended_of_not_hasRoom (h : hasRoom bs = false) (asn : Asn) :
    Segment.read? (extended bs asn) = some (⟨.sequence, [asn]⟩, bs) := by
  rw [extended_of_not_hasRoom h]
  exact Segment.read?_octets_append ⟨.sequence, [asn]⟩ (by simp) bs

/-- Where the count is raised, one member more is read, also if the members are cut short. -/
theorem read?_extended_of_hasRoom (h : hasRoom bs = true) (asn : Asn) :
    Segment.read? (extended bs asn) =
      (Segment.read? bs).map (fun r ↦ (⟨.sequence, asn :: r.1.members⟩, r.2)) := by
  obtain ⟨n, rest, rfl, hn⟩ := (hasRoom_iff bs).1 h
  obtain ⟨a, b, ho, rfl⟩ := Asn.exists_octets_eq asn
  have hcount : (n + 1).toNat = n.toNat + 1 := by
    rw [UInt8.toNat_add, UInt8.toNat_one]
    omega
  have hkind : (Numbered.ofCode? (2 : UInt8) : Option SegmentKind) = some .sequence := by decide
  rw [extended, if_pos h, ho]
  simp only [Segment.read?, hkind, hcount, List.cons_append, List.nil_append, Segment.members?]
  cases Segment.members? n.toNat rest <;> rfl

/-- What is read of an extended path is what was read of the path with the AS in front. -/
theorem split_extended (h : hasRoom bs = true → ∃ r, Segment.read? bs = some r) (asn : Asn) :
    split (extended bs asn) = (prepended asn (segments bs), (split bs).2) := by
  cases hroom : hasRoom bs with
  | true =>
    obtain ⟨r, hr⟩ := h hroom
    have hread := read?_extended_of_hasRoom hroom asn
    obtain ⟨hlt, hbs⟩ := Segment.read?_eq_some hr
    have htakes := (hasRoom_octets r.1 hlt r.2).1 (hbs ▸ hroom)
    rw [hr, Option.map_some] at hread
    rw [split_of_read? hread, segments, split_of_read? hr, prepended, if_pos htakes]
  | false =>
    rw [split_of_read? (read?_extended_of_not_hasRoom hroom asn)]
    cases hr : Segment.read? bs with
    | none =>
      rw [segments, split_of_read?_none hr, prepended]
    | some r =>
      obtain ⟨hlt, hbs⟩ := Segment.read?_eq_some hr
      have htakes := mt (hasRoom_octets r.1 hlt r.2).2
        (by rw [← hbs, hroom]; exact Bool.false_ne_true)
      rw [segments, split_of_read? hr, prepended, if_neg htakes]

theorem exists_read?_of_isValid (h : isValid bs = true) (hne : bs ≠ []) :
    ∃ r, Segment.read? bs = some r := by
  cases hr : Segment.read? bs with
  | none =>
    rw [isValid, split_of_read?_none hr] at h
    exact absurd (List.isEmpty_iff.1 h) hne
  | some r => exact ⟨r, rfl⟩

theorem split_extended_of_isValid (h : isValid bs = true) (asn : Asn) :
    split (extended bs asn) = (prepended asn (segments bs), []) := by
  rw [split_extended ?_ asn, List.isEmpty_iff.1 h]
  intro hroom
  refine exists_read?_of_isValid h ?_
  rintro rfl
  cases hroom

theorem isValid_extended (bs : Octets) (asn : Asn) : isValid (extended bs asn) = isValid bs := by
  by_cases h : hasRoom bs = true → ∃ r, Segment.read? bs = some r
  · rw [isValid, split_extended h]
    rfl
  · obtain ⟨hroom, hcut⟩ := Classical.not_imp.1 h
    have hnone : Segment.read? bs = none :=
      Option.eq_none_iff_forall_not_mem.2 (fun r hr ↦ hcut ⟨r, hr⟩)
    have hread := read?_extended_of_hasRoom hroom asn
    rw [hnone, Option.map_none] at hread
    rw [isValid, isValid, split_of_read?_none hread, split_of_read?_none hnone]
    obtain ⟨n, rest, rfl, -⟩ := (hasRoom_iff bs).1 hroom
    rw [extended, if_pos hroom]
    rfl

theorem segments_extended (h : isValid bs = true) (asn : Asn) :
    segments (extended bs asn) = prepended asn (segments bs) :=
  congrArg Prod.fst (split_extended_of_isValid h asn)

theorem extended_flatMap {path : List Segment} (h : ∀ s ∈ path, s.members.length ≤ 255)
    (asn : Asn) :
    extended (path.flatMap Segment.octets) asn = (prepended asn path).flatMap Segment.octets := by
  have hsplit := split_extended_of_isValid ((isValid_iff _).2 ⟨path, h, rfl⟩) asn
  have hspec := (split_spec (extended (path.flatMap Segment.octets) asn)).2
  rw [hsplit, segments, split_flatMap h, List.append_nil] at hspec
  exact hspec

theorem isWhole_extended (h : IsWhole bs) (asn : Asn) : IsWhole (extended bs asn) := by
  rw [← isValid_iff] at h ⊢
  rwa [isValid_extended]

theorem flatMap_members_prepended (asn : Asn) (path : List Segment) :
    (prepended asn path).flatMap Segment.members = asn :: path.flatMap Segment.members := by
  cases path with
  | nil => rfl
  | cons s path =>
    rw [prepended]
    split <;> rfl

def totalWeight (path : List Segment) : Nat := path.foldl (fun n s ↦ n + weight s) 0

theorem foldl_weight (path : List Segment) (n : Nat) :
    path.foldl (fun n s ↦ n + weight s) n = n + totalWeight path := by
  induction path generalizing n with
  | nil => rfl
  | cons s path ih =>
    rw [totalWeight, List.foldl_cons, List.foldl_cons, ih, ih]
    omega

theorem totalWeight_cons (s : Segment) (path : List Segment) :
    totalWeight (s :: path) = weight s + totalWeight path := by
  rw [totalWeight, List.foldl_cons, foldl_weight, Nat.zero_add]

theorem totalWeight_of_sequences {path : List Segment} (h : ∀ s ∈ path, s.kind = .sequence) :
    totalWeight path = (path.flatMap Segment.members).length := by
  induction path with
  | nil => rfl
  | cons s path ih =>
    obtain ⟨hkind, hkinds⟩ := List.forall_mem_cons.1 h
    rw [totalWeight_cons, ih hkinds, List.flatMap_cons, List.length_append, weight, hkind]

theorem totalWeight_prepended (asn : Asn) (path : List Segment) :
    totalWeight (prepended asn path) = totalWeight path + 1 := by
  cases path with
  | nil => rfl
  | cons s path =>
    rw [prepended]
    split
    · rename_i h
      simp only [totalWeight_cons, weight, h.1, List.length_cons]
      omega
    · simp only [totalWeight_cons, weight, List.length_cons, List.length_nil]
      omega

theorem contains_iff (bs : Octets) (asn : Asn) :
    contains bs asn = true ↔ asn ∈ (segments bs).flatMap Segment.members := by
  simp [contains]

theorem contains_extended_iff (h : isValid bs = true) (asn x : Asn) :
    contains (extended bs asn) x = true ↔ x = asn ∨ contains bs x = true := by
  rw [contains_iff, contains_iff, segments_extended h, flatMap_members_prepended, List.mem_cons]

/-- No path hides the AS that was put in front of it, unless its segments are not whole. -/
theorem contains_extended (h : isValid (extended bs asn) = true) :
    contains (extended bs asn) asn = true := by
  rw [isValid_extended] at h
  exact (contains_extended_iff h asn asn).2 (.inl rfl)

theorem check_eq_ok_iff (bs : Octets) : check bs = .ok () ↔ isValid bs = true := by
  rw [check]
  split <;> simp_all

/-- Prepending fails only where the path would be too long. It makes no path valid or invalid, and
to one that is valid it adds just the one AS, in front. -/
theorem prepended_of_prepend? (bs : Octets) (asn : Asn) :
    (hasRoom bs = true ↔ ∃ n rest, bs = 2 :: n :: rest ∧ n.toNat < 255) ∧
    (prepend? bs asn = none ↔ 65535 < bs.length + if hasRoom bs then 2 else 4) ∧
    ∀ path, prepend? bs asn = some path →
      path.length = bs.length + (if hasRoom bs then 2 else 4) ∧
      (check path = .ok () ↔ check bs = .ok ()) ∧
      (check bs = .ok () →
        segments path = prepended asn (segments bs) ∧ pathLength path = pathLength bs + 1 ∧
          ∀ x, contains path x = true ↔ x = asn ∨ contains bs x = true) := by
  have hlength := length_extended bs asn
  refine ⟨hasRoom_iff bs, ?_, ?_⟩
  · rw [prepend?, Blob.ofOctets?, hlength, growth, Blob.limit]
    simp only [ite_eq_right_iff, reduceCtorEq, imp_false, Nat.not_le]
  · intro path h
    obtain ⟨rfl, -⟩ := Blob.ofOctets?_eq_some_iff.1 h
    have hcheck : check (extended bs asn) = .ok () ↔ check bs = .ok () := by
      rw [check_eq_ok_iff, check_eq_ok_iff, isValid_extended]
    refine ⟨hlength, hcheck, ?_⟩
    intro hvalid
    rw [check_eq_ok_iff] at hvalid
    refine ⟨segments_extended hvalid asn, ?_, contains_extended_iff hvalid asn⟩
    show totalWeight (segments (extended bs asn)) = totalWeight (segments bs) + 1
    rw [segments_extended hvalid, totalWeight_prepended]

/-- An AS in front of a sequence and a set. -/
theorem prepended_of_prepend?_sequence :
    prepend? [2, 1, 0xFD, 0xE8, 1, 1, 0, 7] 65001 =
        some [2, 2, 0xFD, 0xE9, 0xFD, 0xE8, 1, 1, 0, 7] ∧
      check [2, 1, 0xFD, 0xE8, 1, 1, 0, 7] = .ok () ∧
      check [2, 2, 0xFD, 0xE9, 0xFD, 0xE8, 1, 1, 0, 7] = .ok () ∧
      segments [2, 2, 0xFD, 0xE9, 0xFD, 0xE8, 1, 1, 0, 7] =
        [⟨.sequence, [65001, 65000]⟩, ⟨.set, [7]⟩] ∧
      pathLength [2, 2, 0xFD, 0xE9, 0xFD, 0xE8, 1, 1, 0, 7] = 3 ∧
      ∀ x, contains [2, 2, 0xFD, 0xE9, 0xFD, 0xE8, 1, 1, 0, 7] x = true ↔
        x = 65001 ∨ contains [2, 1, 0xFD, 0xE8, 1, 1, 0, 7] x = true := by
  have hsplit : split [2, 1, 0xFD, 0xE8, 1, 1, 0, 7] =
      ([⟨.sequence, [65000]⟩, ⟨.set, [7]⟩], []) :=
    @split_flatMap [⟨.sequence, [65000]⟩, ⟨.set, [7]⟩] (by decide)
  have hprepend : prepend? [2, 1, 0xFD, 0xE8, 1, 1, 0, 7] 65001 =
      some [2, 2, 0xFD, 0xE9, 0xFD, 0xE8, 1, 1, 0, 7] := by decide
  have hcheck : check [2, 1, 0xFD, 0xE8, 1, 1, 0, 7] = .ok () := by
    rw [check, isValid, hsplit]
    rfl
  obtain ⟨-, -, h⟩ := prepended_of_prepend? [2, 1, 0xFD, 0xE8, 1, 1, 0, 7] 65001
  obtain ⟨-, hvalid, hin⟩ := h _ hprepend
  obtain ⟨hsegments, hlength, hmembers⟩ := hin hcheck
  refine ⟨hprepend, hcheck, hvalid.2 hcheck, ?_, ?_, hmembers⟩
  · rw [hsegments, segments, hsplit]
    rfl
  · rw [hlength, pathLength, segments, hsplit]
    rfl

end PathAttributes.AsPath
