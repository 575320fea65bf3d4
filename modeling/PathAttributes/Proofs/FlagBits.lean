import PathAttributes.Attr.Descriptor
import PathAttributes.Tlv

namespace PathAttributes

theorem forall_octet {p : UInt8 → Prop} (h : ∀ n : Fin 256, p (UInt8.ofFin n)) (b : UInt8) :
    p b := by
  simpa only [UInt8.ofFin_toFin] using h b.toFin

namespace AttrType

def IsUnknown (code : UInt8) : Prop := code = 0 ∨ 8 ≤ code

instance (code : UInt8) : Decidable (IsUnknown code) := inferInstanceAs (Decidable (_ ∨ _))

theorem ofCode?_eq_none_iff (code : UInt8) :
    (Numbered.ofCode? code : Option AttrType) = none ↔ IsUnknown code := by
  revert code
  exact forall_octet (by decide +kernel)

theorem not_isUnknown_code (type : AttrType) : ¬IsUnknown (Numbered.code type) := by
  cases type <;> decide

end AttrType

namespace Flags

theorem category_ofOctet_eq_iff (b : UInt8) (f : Flags) :
    (ofOctet b).category = f ↔ b &&& 0xC0 = f.bits := by
  have h : (ofOctet b).category.bits = b &&& 0xC0 := by
    revert b
    exact forall_octet (by decide +kernel)
  rw [← h, Flags.ext_iff]

theorem contains_optionalBit_ofOctet (b : UInt8) :
    (ofOctet b).contains optionalBit = true ↔ b &&& 0x80 ≠ 0 := by
  revert b
  exact forall_octet (by decide +kernel)

theorem contains_transitiveBit_ofOctet (b : UInt8) :
    (ofOctet b).contains transitiveBit = true ↔ b &&& 0x40 ≠ 0 := by
  revert b
  exact forall_octet (by decide +kernel)

theorem contains_extendedBit (f : Flags) :
    f.contains extendedBit = true ↔ f.bits &&& 0x10 ≠ 0 := by
  cases f with
  | mk b =>
    revert b
    exact forall_octet (by decide +kernel)

theorem union_extendedBit_and (f : Flags) {m : UInt8} (hm : 0xEF &&& m = m) :
    (f.union extendedBit).bits &&& m = f.bits &&& m := by
  have h : (f.union extendedBit).bits &&& 0xEF = f.bits &&& 0xEF := by
    cases f with
    | mk b =>
      revert b
      exact forall_octet (by decide +kernel)
  rw [← hm, ← UInt8.and_assoc, h, UInt8.and_assoc]

end Flags

theorem Tlv.lengthWidth_eq (b : UInt8) : lengthWidth b = if b &&& 0x10 ≠ 0 then 2 else 1 := by
  revert b
  exact forall_octet (by decide +kernel)

end PathAttributes
