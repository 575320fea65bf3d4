import PathAttributes.Proofs.FlagBits

namespace PathAttributes

namespace Numeral

theorem decimalValue?_digit {d : Nat} (h : d < 10) : decimalValue? (digit d) = some d := by
  revert d
  decide

theorem hexValue?_digit {d : Nat} (h : d < 16) : hexValue? (digit d) = some d := by
  revert d
  decide

theorem isDigit_digit {d : Nat} (h : d < 10) : (digit d).isDigit = true := by
  revert d
  decide

theorem digit_ne_zero {d : Nat} (h : d < 10) (hd : 0 < d) : digit d ≠ '0' := by
  revert d
  decide

theorem isDigit_of_mem_decimal {n : Nat} {c : Char} (h : c ∈ decimal n) : c.isDigit = true := by
  induction n using decimal.induct with
  | case1 n hn =>
    rw [decimal, if_pos hn, List.mem_singleton] at h
    exact h ▸ isDigit_digit hn
  | case2 n hn ih =>
    rw [decimal, if_neg hn, List.mem_append, List.mem_singleton] at h
    rcases h with h | rfl
    · exact ih h
    · exact isDigit_digit (Nat.mod_lt n (by decide))

/-- Only zero is written with a zero in front. -/
theorem exists_decimal_eq_cons {n : Nat} (h : 0 < n) :
    ∃ d ds, decimal n = digit d :: ds ∧ d < 10 ∧ 0 < d := by
  induction n using decimal.induct with
  | case1 n hn => exact ⟨n, [], by rw [decimal, if_pos hn], hn, h⟩
  | case2 n hn ih =>
    obtain ⟨d, ds, he, hd⟩ := ih (by omega)
    exact ⟨d, ds ++ [digit (n % 10)], by rw [decimal, if_neg hn, he, List.cons_append], hd⟩

theorem decimal_ne_nil (n : Nat) : decimal n ≠ [] := by
  rw [decimal]
  split <;> simp

theorem foldlM_decimal (n : Nat) :
    (decimal n).foldlM (fun m c ↦ (decimalValue? c).map (10 * m + ·)) 0 = some n := by
  induction n using decimal.induct with
  | case1 n hn =>
    rw [decimal, if_pos hn]
    simp [decimalValue?_digit hn]
  | case2 n hn ih =>
    have hd : decimalValue? (digit (n % 10)) = some (n % 10) :=
      decimalValue?_digit (Nat.mod_lt n (by decide))
    rw [decimal, if_neg hn, List.foldlM_append, ih]
    simp [hd, Nat.div_add_mod]

theorem ofDecimal?_decimal (n : Nat) : ofDecimal? (decimal n) = some n := by
  rw [ofDecimal?, value?, if_neg (by simpa using decimal_ne_nil n)]
  exact foldlM_decimal n

theorem ofPlainDecimal?_decimal (n : Nat) : ofPlainDecimal? (decimal n) = some n := by
  rcases Nat.eq_zero_or_pos n with rfl | hn
  · rw [decimal, if_pos (by decide)]
    decide
  obtain ⟨d, ds, he, hd, hpos⟩ := exists_decimal_eq_cons hn
  have hv := ofDecimal?_decimal n
  rw [he] at hv ⊢
  rw [ofPlainDecimal?]
  · exact hv
  · intro c cs h
    exact digit_ne_zero hd hpos (List.cons.inj h).1

end Numeral

theorem Text.pieces_intercalate {separator : Char} {ps : List (List Char)} (hne : ps ≠ [])
    (h : ∀ p ∈ ps, separator ∉ p) : pieces separator ([separator].intercalate ps) = ps := by
  induction ps with
  | nil => exact absurd rfl hne
  | cons p ps ih =>
    have hp : separator ∉ p := h p List.mem_cons_self
    cases ps with
    | nil => rw [List.intercalate_singleton, pieces_of_not_mem hp]
    | cons q qs =>
      have hqs := ih (List.cons_ne_nil q qs) (fun r hr ↦ h r (List.mem_cons_of_mem p hr))
      rw [List.intercalate_cons_cons, List.append_assoc, List.singleton_append, pieces_append hp,
        hqs]

namespace Ipv4

theorem octetOfChars?_decimal (b : UInt8) : octetOfChars? (Numeral.decimal b.toNat) = some b := by
  rw [octetOfChars?, Numeral.ofPlainDecimal?_decimal]
  show (if b.toNat < 256 then some (UInt8.ofNat b.toNat) else none) = some b
  rw [if_pos b.toNat_lt, UInt8.ofNat_toNat]

theorem not_mem_decimal (n : Nat) : '.' ∉ Numeral.decimal n :=
  fun h ↦ absurd (Numeral.isDigit_of_mem_decimal h) (by decide)

theorem ofChars?_chars (a : Ipv4) : ofChars? a.chars = some a := by
  have hpieces : Text.pieces '.' a.chars = a.octets.map (fun b ↦ Numeral.decimal b.toNat) := by
    have hne : a.octets.map (fun b ↦ Numeral.decimal b.toNat) ≠ [] := List.cons_ne_nil _ _
    apply Text.pieces_intercalate hne
    rw [List.forall_mem_map]
    exact fun b _ ↦ not_mem_decimal b.toNat
  have hread : (Text.pieces '.' a.chars).mapM octetOfChars? = some a.octets := by
    have hone : octetOfChars? ∘ (fun b : UInt8 ↦ Numeral.decimal b.toNat) = pure :=
      funext octetOfChars?_decimal
    rw [hpieces, List.mapM_map, hone, List.mapM_pure, List.map_id']
    rfl
  have hlength : a.octets.length = 4 := Octets.length_ofNat 4 a.bits.toNat
  have ho : ofOctets? a.octets = some a := by
    simpa only [List.append_nil] using ofOctets?_octets_append a []
  rw [ofChars?, hread]
  show (if a.octets.length = 4 then ofOctets? a.octets else none) = some a
  rw [if_pos hlength, ho]

end Ipv4

theorem Flags.ofChars?_chars (f : Flags) : ofChars? f.chars = some f := by
  cases f with
  | mk b =>
    revert b
    exact forall_octet (by decide +kernel)

example : (⟨0x8F⟩ : Flags).text = "OPTIONAL | 0xf" := by decide +kernel

end PathAttributes
