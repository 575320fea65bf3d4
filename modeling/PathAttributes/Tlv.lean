import PathAttributes.Flags
import PathAttributes.Octets

namespace PathAttributes

structure Tlv where
  flags : UInt8
  code : UInt8
  value : Octets
deriving DecidableEq

namespace Tlv

def lengthWidth (flags : UInt8) : Nat :=
  if (Flags.ofOctet flags).contains .extendedBit then 2 else 1

def octets (t : Tlv) : Octets :=
  t.flags :: t.code :: (Octets.ofNat (lengthWidth t.flags) t.value.length ++ t.value)

def read? : Octets → Option (Tlv × Octets)
  | flags :: code :: bs => do
    let length ← Octets.take? (lengthWidth flags) bs
    let value ← Octets.take? (Octets.toNat length.1) length.2
    return (⟨flags, code, value.1⟩, value.2)
  | _ => none

def Fits (t : Tlv) : Prop := t.value.length < Octets.count (lengthWidth t.flags)

/-- An attribute that was read is written as the octets it was read from. -/
theorem read?_eq_some {bs : Octets} {r : Tlv × Octets} (h : read? bs = some r) :
    r.1.Fits ∧ bs = r.1.octets ++ r.2 := by
  match bs, h with
  | flags :: code :: bs, h =>
    simp only [read?, Option.bind_eq_bind, Option.bind_eq_some_iff] at h
    obtain ⟨length, hl, value, hv, hr⟩ := h
    cases hr
    obtain ⟨hw, rfl⟩ := Octets.take?_eq_some_iff.1 hl
    obtain ⟨hn, he⟩ := Octets.take?_eq_some_iff.1 hv
    have hlt := Octets.toNat_lt length.1
    have hback := Octets.ofNat_toNat length.1
    rw [hw] at hlt hback
    exact ⟨by simpa only [Fits, hn] using hlt, by simp [octets, hn, hback, he]⟩

theorem read?_octets_append {t : Tlv} (ht : t.Fits) (bs : Octets) :
    read? (t.octets ++ bs) = some (t, bs) := by
  have hl : Octets.take? (lengthWidth t.flags)
      (Octets.ofNat (lengthWidth t.flags) t.value.length ++ (t.value ++ bs)) =
        some (Octets.ofNat (lengthWidth t.flags) t.value.length, t.value ++ bs) :=
    Octets.take?_eq_some_iff.2 ⟨Octets.length_ofNat _ _, rfl⟩
  have hv : Octets.take? t.value.length (t.value ++ bs) = some (t.value, bs) :=
    Octets.take?_eq_some_iff.2 ⟨rfl, rfl⟩
  simp [octets, read?, hl, Octets.toNat_ofNat, Nat.mod_eq_of_lt ht, hv]

theorem length_lt_of_read? {bs : Octets} {r : Tlv × Octets} (h : read? bs = some r) :
    r.2.length < bs.length := by
  rw [(read?_eq_some h).2, octets]
  simp only [List.length_append, List.length_cons]
  omega

/-- The complete attributes at the start of a string, and the rest, which starts with none. -/
def split (bs : Octets) : List Tlv × Octets :=
  match h : read? bs with
  | some r =>
    have := length_lt_of_read? h
    let s := split r.2
    (r.1 :: s.1, s.2)
  | none => ([], bs)
termination_by bs.length

theorem split_of_read? {bs : Octets} {r : Tlv × Octets} (h : read? bs = some r) :
    split bs = (r.1 :: (split r.2).1, (split r.2).2) := by
  rw [split]
  split <;> simp_all

theorem split_of_read?_none {bs : Octets} (h : read? bs = none) : split bs = ([], bs) := by
  rw [split]
  split <;> simp_all

end Tlv

end PathAttributes
