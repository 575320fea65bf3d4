import PathAttributes.Octets
import PathAttributes.Numeral
import PathAttributes.Text.Pieces

namespace PathAttributes

@[ext] structure Ipv4 where
  bits : UInt32
deriving DecidableEq

namespace Ipv4

def unspecified : Ipv4 := ⟨0⟩

def octets (a : Ipv4) : Octets := Octets.ofNat 4 a.bits.toNat

def ofOctets? : Octets → Option Ipv4
  | a :: b :: c :: d :: _ => some ⟨UInt32.ofNat (Octets.toNat [a, b, c, d])⟩
  | _ => none

theorem ofOctets?_octets_append (a : Ipv4) (bs : Octets) : ofOctets? (a.octets ++ bs) = some a := by
  have hlt : a.bits.toNat < Octets.count 4 := a.bits.toNat_lt
  have h := Octets.toNat_ofNat 4 a.bits.toNat
  simp only [octets, Octets.ofNat, List.cons_append, List.nil_append, ofOctets?] at h ⊢
  rw [h, Nat.mod_eq_of_lt hlt, UInt32.ofNat_toNat]

/-- Addresses of one host other than the receiver: neither unspecified, loopback, multicast nor
broadcast. -/
def isUsable (a : Ipv4) : Bool :=
  let first := a.bits.toNat / 0x1000000
  !(first == 127 || a.bits == 0xFFFFFFFF || (224 ≤ first && first < 240) || a.bits == 0)

def chars (a : Ipv4) : List Char :=
  List.intercalate ['.'] (a.octets.map (fun b ↦ Numeral.decimal b.toNat))

def text (a : Ipv4) : String := String.ofList a.chars

/-- One number of an address: one to three digits, at most 255, without a leading zero. -/
def octetOfChars? (cs : List Char) : Option UInt8 := do
  let n ← Numeral.ofPlainDecimal? cs
  if n < 256 then some (UInt8.ofNat n) else none

def ofChars? (cs : List Char) : Option Ipv4 := do
  let bs ← (Text.pieces '.' cs).mapM octetOfChars?
  if bs.length = 4 then ofOctets? bs else none

def ofText? (s : String) : Option Ipv4 := ofChars? s.toList

instance : Ord Ipv4 := ⟨compareOn bits⟩

theorem compare_eq (a b : Ipv4) : compare a b = compare a.bits.toNat b.bits.toNat := by
  show compareOfLessAndEq a.bits b.bits = compareOfLessAndEq a.bits.toNat b.bits.toNat
  simp only [compareOfLessAndEq, UInt32.lt_iff_toNat_lt, ← UInt32.toNat_inj]

end Ipv4

end PathAttributes
