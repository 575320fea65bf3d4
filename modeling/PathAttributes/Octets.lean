namespace PathAttributes

abbrev Octets := List UInt8

namespace Octets

/-- The number that octets stand for, most significant octet first. -/
def toNat (bs : Octets) : Nat := bs.foldl (fun n b ↦ 256 * n + b.toNat) 0

def count : (width : Nat) → Nat
  | 0 => 1
  | width + 1 => 256 * count width

theorem count_pos (width : Nat) : 0 < count width := by
  induction width with
  | zero => decide
  | succ width ih => exact Nat.mul_pos (by decide) ih

/-- A number in so many octets, most significant first; what does not fit is cut off in front. -/
def ofNat : (width : Nat) → Nat → Octets
  | 0, _ => []
  | width + 1, n => UInt8.ofNat (n / count width) :: ofNat width n

@[simp] theorem length_ofNat (width n : Nat) : (ofNat width n).length = width := by
  induction width with
  | zero => rfl
  | succ width ih => simp [ofNat, ih]

theorem foldl_eq (bs : Octets) (n : Nat) :
    bs.foldl (fun n b ↦ 256 * n + b.toNat) n = n * count bs.length + toNat bs := by
  induction bs generalizing n with
  | nil => simp [toNat, count]
  | cons b bs ih =>
    rw [toNat, List.foldl_cons, List.foldl_cons, ih, ih (256 * 0 + b.toNat), List.length_cons,
      count]
    grind

theorem toNat_cons (b : UInt8) (bs : Octets) :
    toNat (b :: bs) = b.toNat * count bs.length + toNat bs := by
  rw [toNat, List.foldl_cons, foldl_eq]
  simp

theorem toNat_lt (bs : Octets) : toNat bs < count bs.length := by
  induction bs with
  | nil => decide
  | cons b bs ih =>
    have hb : b.toNat + 1 ≤ 256 := b.toNat_lt
    have h := Nat.mul_le_mul_right (count bs.length) hb
    rw [toNat_cons, List.length_cons, count]
    grind

/-- A number is read back modulo the width it was written in. -/
theorem toNat_ofNat (width n : Nat) : toNat (ofNat width n) = n % count width := by
  induction width with
  | zero => simp [ofNat, toNat, count, Nat.mod_one]
  | succ width ih =>
    have h : n % count (width + 1) = n % count width + count width * (n / count width % 256) := by
      rw [count, Nat.mul_comm, Nat.mod_mul]
    rw [ofNat, toNat_cons, ih, length_ofNat, h, Nat.add_comm, Nat.mul_comm]
    rfl

theorem ofNat_add_toNat (k : Nat) (bs : Octets) :
    ofNat bs.length (k * count bs.length + toNat bs) = bs := by
  induction bs generalizing k with
  | nil => rfl
  | cons b bs ih =>
    have h : k * (256 * count bs.length) + (b.toNat * count bs.length + toNat bs) =
        (k * 256 + b.toNat) * count bs.length + toNat bs := by grind
    have hd : ((k * 256 + b.toNat) * count bs.length + toNat bs) / count bs.length =
        k * 256 + b.toNat := by
      rw [Nat.add_comm, Nat.add_mul_div_right _ _ (count_pos _), Nat.div_eq_of_lt (toNat_lt bs),
        Nat.zero_add]
    rw [toNat_cons, List.length_cons, count, h, ofNat, ih, hd]
    congr
    apply UInt8.toNat_inj.1
    have := b.toNat_lt
    rw [UInt8.toNat_ofNat']
    omega

/-- Octets are what their own number is written as. -/
theorem ofNat_toNat (bs : Octets) : ofNat bs.length (toNat bs) = bs := by
  simpa using ofNat_add_toNat 0 bs

def take? (n : Nat) (bs : Octets) : Option (Octets × Octets) :=
  let as := bs.take n
  if as.length = n then some (as, bs.drop n) else none

theorem take?_eq_some_iff {n : Nat} {bs : Octets} {r : Octets × Octets} :
    take? n bs = some r ↔ r.1.length = n ∧ bs = r.1 ++ r.2 := by
  simp only [take?, Option.ite_none_right_eq_some, Option.some.injEq]
  constructor
  · rintro ⟨h, rfl⟩
    exact ⟨h, (List.take_append_drop n bs).symm⟩
  · rintro ⟨rfl, rfl⟩
    simp

end Octets

end PathAttributes
