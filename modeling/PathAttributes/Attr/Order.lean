import PathAttributes.Attr.Basic

namespace PathAttributes

/-- To compare by one number and then by a lesser is to compare by one number in place of both. -/
theorem compare_mul_add {k m n a b : Nat} (ha : a < k) (hb : b < k) :
    (compare m n).then (compare a b) = compare (m * k + a) (n * k + b) := by
  rcases Nat.lt_trichotomy m n with h | rfl | h
  · have hle := Nat.mul_le_mul_right k (Nat.succ_le_of_lt h)
    rw [Nat.succ_mul] at hle
    have hlt : m * k + a < n * k + b := by omega
    rw [Nat.compare_eq_lt.2 h, Nat.compare_eq_lt.2 hlt]
    rfl
  · rw [Nat.compare_eq_eq.2 rfl]
    simp only [Ordering.then, compare, compareOfLessAndEq]
    grind
  · have hle := Nat.mul_le_mul_right k (Nat.succ_le_of_lt h)
    rw [Nat.succ_mul] at hle
    have hlt : n * k + b < m * k + a := by omega
    rw [Nat.compare_eq_gt.2 h, Nat.compare_eq_gt.2 hlt]
    rfl

def Value.content : Value → List Nat
  | .int n => [n.toNat]
  | .routerId a | .address a => [a.bits.toNat]
  | .raw data | .asPath data | .intSet data => data.map UInt8.toNat

/-- The numbers by which attributes are ordered: id, flags, kind and value, in this order. -/
def Attr.key (a : Attr) : List Nat :=
  a.id.number :: a.flags.bits.toNat :: Named.rank a.value.kind :: a.value.content

theorem Value.content_injective {v w : Value} (hk : v.kind = w.kind)
    (h : v.content = w.content) : v = w := by
  have hn (a b : Blob) : a.map UInt8.toNat = b.map UInt8.toNat → a = b :=
    (List.map_inj_right (fun _ _ ↦ UInt8.toNat_inj.1)).1
  cases v <;> cases w <;> simp only [kind, reduceCtorEq] at hk <;>
    simp_all [content, Ipv4.ext_iff, UInt32.toNat_inj]
  all_goals exact hn _ _ h

theorem Attr.key_injective {a b : Attr} (h : a.key = b.key) : a = b := by
  simp only [key, List.cons.injEq] at h
  obtain ⟨hid, hf, hk, hc⟩ := h
  cases a
  cases b
  have := AttrId.number_injective hid
  have := Value.content_injective (Named.rank_injective hk) hc
  simp_all [Flags.ext_iff, UInt8.toNat_inj]

instance : Ord Attr := ⟨compareOn Attr.key⟩

end PathAttributes
