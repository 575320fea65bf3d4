import PathAttributes.CodePoint
import PathAttributes.Octets

namespace PathAttributes

abbrev Asn := UInt16

structure Segment where
  kind : SegmentKind
  members : List Asn
deriving DecidableEq

namespace Asn

def octets (m : Asn) : Octets := Octets.ofNat 2 m.toNat

def ofOctets (a b : UInt8) : Asn := UInt16.ofNat (Octets.toNat [a, b])

theorem octets_ofOctets (a b : UInt8) : octets (ofOctets a b) = [a, b] := by
  have hlt : Octets.toNat [a, b] < 65536 := Octets.toNat_lt [a, b]
  have hn : (ofOctets a b).toNat = Octets.toNat [a, b] := by
    rw [ofOctets, UInt16.toNat_ofNat', Nat.mod_eq_of_lt hlt]
  rw [octets, hn]
  exact Octets.ofNat_toNat [a, b]

theorem exists_octets_eq (m : Asn) : ∃ a b, octets m = [a, b] ∧ ofOctets a b = m := by
  refine ⟨_, _, rfl, ?_⟩
  have hm : m.toNat < Octets.count 2 := m.toNat_lt
  have h := Octets.toNat_ofNat 2 m.toNat
  rw [Nat.mod_eq_of_lt hm] at h
  simp only [Octets.ofNat] at h
  rw [ofOctets, h, UInt16.ofNat_toNat]

end Asn

namespace Segment

def octets (s : Segment) : Octets :=
  Numbered.code s.kind :: UInt8.ofNat s.members.length :: s.members.flatMap Asn.octets

def members? : Nat → Octets → Option (List Asn × Octets)
  | 0, bs => some ([], bs)
  | n + 1, a :: b :: bs => (members? n bs).map (fun r ↦ (Asn.ofOctets a b :: r.1, r.2))
  | _ + 1, _ => none

def read? : Octets → Option (Segment × Octets)
  | k :: n :: bs => do
    let kind ← Numbered.ofCode? k
    let r ← members? n.toNat bs
    return (⟨kind, r.1⟩, r.2)
  | _ => none

/-- Reading members loses nothing. -/
theorem members?_eq_some {n : Nat} {bs : Octets} {r : List Asn × Octets}
    (h : members? n bs = some r) :
    r.1.length = n ∧ bs = r.1.flatMap Asn.octets ++ r.2 := by
  induction n generalizing bs r with
  | zero =>
    cases h
    simp
  | succ n ih =>
    match bs, h with
    | a :: b :: bs, h =>
      obtain ⟨r', hr, rfl⟩ := Option.map_eq_some_iff.1 h
      obtain ⟨hl, he⟩ := ih hr
      exact ⟨by simp [hl], by simp [Asn.octets_ofOctets, ← he]⟩

theorem members?_append (ms : List Asn) (bs : Octets) :
    members? ms.length (ms.flatMap Asn.octets ++ bs) = some (ms, bs) := by
  induction ms with
  | nil => rfl
  | cons m ms ih =>
    obtain ⟨a, b, ho, hm⟩ := Asn.exists_octets_eq m
    simp [ho, members?, ih, hm]

/-- A segment that was read is written as the octets it was read from. -/
theorem read?_eq_some {bs : Octets} {r : Segment × Octets} (h : read? bs = some r) :
    r.1.members.length < 256 ∧ bs = r.1.octets ++ r.2 := by
  match bs, h with
  | k :: n :: bs, h =>
    simp only [read?, Option.bind_eq_bind, Option.bind_eq_some_iff] at h
    obtain ⟨kind, hk, r', hr, hh⟩ := h
    cases hh
    obtain ⟨hl, he⟩ := members?_eq_some hr
    have := n.toNat_lt
    exact ⟨by simp only [hl]; exact this,
      by simp [octets, hl, ← he, Numbered.code_eq_of_ofCode? hk]⟩

theorem read?_octets_append (s : Segment) (hs : s.members.length < 256) (bs : Octets) :
    read? (s.octets ++ bs) = some (s, bs) := by
  have h : (UInt8.ofNat s.members.length).toNat = s.members.length := by
    rw [UInt8.toNat_ofNat', Nat.mod_eq_of_lt hs]
  simp [octets, read?, Numbered.ofCode?_code, h, members?_append]

theorem length_lt_of_read? {bs : Octets} {r : Segment × Octets} (h : read? bs = some r) :
    r.2.length < bs.length := by
  rw [(read?_eq_some h).2, octets]
  simp only [List.length_append, List.length_cons]
  omega

end Segment

end PathAttributes
