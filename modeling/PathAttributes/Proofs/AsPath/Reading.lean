import Mathlib.Algebra.Ring.Nat
import PathAttributes.Proofs.AsPath.Extended

namespace PathAttributes.AsPath

variable {bs rest : Octets} {path : List Segment}

/-- Octets are segments one after the other, each with a count that its octet can hold, and a rest
that starts with no segment. -/
structure Reads (bs : Octets) (path : List Segment) (rest : Octets) : Prop where
  counted : ∀ s ∈ path, s.members.length ≤ 255
  octets : bs = path.flatMap Segment.octets ++ rest
  maximal : ∀ s after, s.members.length ≤ 255 → rest ≠ Segment.octets s ++ after

def advance (bs : Octets) : Option (Except AttrFault Segment) × Octets :=
  match next? bs with
  | some r => (some r.1, r.2)
  | none => (none, bs)

def found (bs : Octets) : Nat → Option (Except AttrFault Segment)
  | 0 => (advance bs).1
  | n + 1 => found (advance bs).2 n

theorem next?_eq_none_iff : next? bs = none ↔ bs = [] := by
  rw [next?]
  split
  · rename_i h
    exact iff_of_true rfl (List.isEmpty_iff.1 h)
  · rename_i h
    split <;> simpa using h

theorem advance_fst (bs : Octets) : (advance bs).1 = (items bs).head? := by
  cases hn : next? bs with
  | none => rw [advance, hn, next?_eq_none_iff.1 hn, items_nil, List.head?_nil]
  | some r => rw [advance, hn, items_of_next? hn, List.head?_cons]

theorem items_advance (bs : Octets) : items (advance bs).2 = (items bs).tail := by
  cases hn : next? bs with
  | none => rw [advance, hn, next?_eq_none_iff.1 hn, items_nil, List.tail_nil]
  | some r => rw [advance, hn, items_of_next? hn, List.tail_cons]

theorem found_eq (bs : Octets) (n : Nat) : found bs n = (items bs)[n]? := by
  induction n generalizing bs with
  | zero => rw [found, advance_fst, List.head?_eq_getElem?]
  | succ n ih => rw [found, ih, items_advance, List.getElem?_tail]

theorem read?_eq_none_iff :
    Segment.read? bs = none ↔
      ∀ s after, s.members.length ≤ 255 → bs ≠ Segment.octets s ++ after := by
  constructor
  · rintro h s after hs rfl
    rw [Segment.read?_octets_append s (Nat.lt_succ_of_le hs)] at h
    cases h
  · intro h
    cases hr : Segment.read? bs with
    | none => rfl
    | some r =>
      obtain ⟨hlt, hbs⟩ := Segment.read?_eq_some hr
      exact absurd hbs (h r.1 r.2 (Nat.le_of_lt_succ hlt))

theorem read?_rest (bs : Octets) : Segment.read? (split bs).2 = none := by
  fun_induction split bs with
  | case1 bs r h _ rest ih => exact ih
  | case2 bs h => exact h

/-- The grammar leaves the reader no choice. -/
theorem reads_iff : Reads bs path rest ↔ split bs = (path, rest) := by
  constructor
  · intro h
    have hrest := split_of_read?_none (read?_eq_none_iff.2 h.maximal)
    rw [h.octets, split_flatMap_append h.counted, hrest, List.append_nil]
  · intro h
    obtain ⟨hcount, hbs⟩ := split_spec bs
    have hrest := read?_rest bs
    rw [h] at hcount hbs hrest
    exact ⟨hcount, hbs, read?_eq_none_iff.1 hrest⟩

theorem totalWeight_eq_sum (path : List Segment) :
    totalWeight path = (path.map weight).sum := by
  induction path with
  | nil => rfl
  | cons s path ih => rw [totalWeight_cons, ih, List.map_cons, List.sum_cons]

theorem octets_eq (s : Segment) :
    s.octets = (if s.kind = .set then 1 else 2) :: UInt8.ofNat s.members.length ::
      s.members.flatMap (fun m ↦ [UInt8.ofNat (m.toNat / 256), UInt8.ofNat m.toNat]) := by
  have hkind : Numbered.code s.kind = if s.kind = .set then 1 else 2 := by
    cases s.kind <;> rfl
  have hmember (m : Asn) :
      Asn.octets m = [UInt8.ofNat (m.toNat / 256), UInt8.ofNat m.toNat] := by
    simp [Asn.octets, Octets.ofNat, Octets.count]
  rw [Segment.octets, hkind, funext hmember]

namespace Reads

variable (h : Reads bs path rest)
include h

theorem segments_eq : segments bs = path := congrArg Prod.fst (reads_iff.1 h)

theorem isValid_iff : isValid bs = true ↔ rest = [] := by
  rw [isValid, reads_iff.1 h, List.isEmpty_iff]

theorem found_eq (n : Nat) :
    found bs n = (path.map .ok ++ if rest = [] then [] else [.error .malformedAsPath])[n]? := by
  rw [AsPath.found_eq, items_eq, h.segments_eq]
  simp only [h.isValid_iff]

theorem check_eq : check bs = .ok () ↔ rest = [] := (check_eq_ok_iff bs).trans h.isValid_iff

theorem contains_iff (asn : Asn) : contains bs asn = true ↔ ∃ s ∈ path, asn ∈ s.members := by
  rw [AsPath.contains_iff, h.segments_eq, List.mem_flatMap]

theorem pathLength_eq :
    pathLength bs =
      (path.map (fun s ↦ if s.kind = .set then 1 else s.members.length)).sum := by
  have hweight (s : Segment) : weight s = if s.kind = .set then 1 else s.members.length := by
    rw [weight]
    cases s.kind <;> rfl
  have hlength : pathLength bs = totalWeight (segments bs) := rfl
  rw [hlength, h.segments_eq, totalWeight_eq_sum, funext hweight]

end Reads

theorem reads_flatMap (h : ∀ s ∈ path, s.members.length ≤ 255) :
    Reads (path.flatMap Segment.octets) path [] := reads_iff.2 (split_flatMap h)

/-- Octets are read in one way only as segments and a rest that starts with none. The reader finds
these segments, then a fault if there is a rest, and nothing more. Segments that were written one
after the other are read back. -/
theorem reads_exactly :
    (∀ s : Segment, s.octets = (if s.kind = .set then 1 else 2) :: UInt8.ofNat s.members.length ::
      s.members.flatMap (fun m ↦ [UInt8.ofNat (m.toNat / 256), UInt8.ofNat m.toNat])) ∧
    (∀ bs, ∃ path rest, Reads bs path rest ∧
      (∀ path' rest', Reads bs path' rest' → path' = path ∧ rest' = rest) ∧
      (∀ n, found bs n =
        (path.map .ok ++ if rest = [] then [] else [.error .malformedAsPath])[n]?) ∧
      (check bs = .ok () ↔ rest = []) ∧
      (∀ asn, contains bs asn = true ↔ ∃ s ∈ path, asn ∈ s.members) ∧
      pathLength bs =
        (path.map (fun s ↦ if s.kind = .set then 1 else s.members.length)).sum) ∧
    ∀ path : List Segment, (∀ s ∈ path, s.members.length ≤ 255) →
      check (path.flatMap Segment.octets) = .ok () ∧
      ∀ n, found (path.flatMap Segment.octets) n = path[n]?.map .ok := by
  refine ⟨octets_eq, ?_, ?_⟩
  · intro bs
    have h : Reads bs (split bs).1 (split bs).2 := reads_iff.2 rfl
    refine ⟨_, _, h, ?_, h.found_eq, h.check_eq, h.contains_iff, h.pathLength_eq⟩
    intro path' rest' h'
    exact Prod.mk.inj ((reads_iff.1 h').symm.trans (reads_iff.1 h))
  · intro path hcount
    have h := reads_flatMap hcount
    refine ⟨h.check_eq.2 rfl, ?_⟩
    intro n
    rw [h.found_eq, if_pos rfl, List.append_nil, List.getElem?_map]

/-- A segment of an unknown kind ends what is found of a path. -/
example :
    found [2, 1, 0xFD, 0xE9, 5, 1, 0xFD, 0xEA] 0 = some (.ok ⟨.sequence, [65001]⟩) ∧
      found [2, 1, 0xFD, 0xE9, 5, 1, 0xFD, 0xEA] 1 = some (.error .malformedAsPath) ∧
      found [2, 1, 0xFD, 0xE9, 5, 1, 0xFD, 0xEA] 2 = none := ⟨rfl, rfl, rfl⟩

end PathAttributes.AsPath
