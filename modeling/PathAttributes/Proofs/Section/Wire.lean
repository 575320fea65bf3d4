import PathAttributes.AttrList.Basic
import PathAttributes.Proofs.Section.Grammar

namespace PathAttributes

open Tlv

namespace AttrType

def Keeps : AttrType → Value → Prop
  | origin, .int n => n ≤ 2
  | asPath, .asPath data => AsPath.IsWhole data ∧ data.length ≤ Blob.limit
  | nextHop, .address a => Ipv4.IsHost a.octets
  | multiExitDisc, .int _ | localPref, .int _ => True
  | atomicAggregate, .raw data => data = []
  | aggregator, .raw data => data.length = 6
  | _, _ => False

theorem keeps_sentValue {type : AttrType} {v : Octets} (hl : type.HasLength v) (h : type.Allows v)
    (hb : v.length ≤ Blob.limit) : type.Keeps (type.sentValue v) := by
  cases type with
  | origin =>
    have hcode : ∀ code : UInt8, code ≤ 2 → UInt32.ofNat (Octets.toNat [code]) ≤ 2 :=
      forall_octet (by decide +kernel)
    obtain ⟨code, hle, rfl⟩ := h
    exact hcode code hle
  | asPath => exact ⟨h, hb⟩
  | nextHop =>
    obtain ⟨a, rfl, ha⟩ := Ipv4.exists_octets (hl 4 rfl)
    rw [sentValue, ← ha]
    exact h
  | multiExitDisc | localPref => exact trivial
  | atomicAggregate => exact List.eq_nil_of_length_eq_zero (hl 0 rfl)
  | aggregator => exact hl 6 rfl

end AttrType

namespace Attr

def tlv (a : Attr) : Tlv := ⟨a.wireFlags.bits, a.id.code, a.body⟩

/-- An attribute whose value is long has the flag of the longer length when it comes back. -/
def sent (a : Attr) : Attr :=
  if 255 < a.body.length then { a with flags := a.flags.union .extendedBit } else a

structure WellFormed (a : Attr) : Prop where
  defined : a.flags.bits &&& 0x0F = 0
  category : ∀ type : AttrType, a.id.code = Numbered.code type →
    a.flags.bits &&& 0xC0 = type.descriptor.flags.bits
  value : ∀ type : AttrType, a.id.code = Numbered.code type → type.Keeps a.value
  optional : AttrType.IsUnknown a.id.code → a.flags.bits &&& 0x80 ≠ 0
  partialMark : AttrType.IsUnknown a.id.code → a.flags.bits &&& 0x40 ≠ 0 →
    a.flags.bits &&& 0x20 ≠ 0
  raw : AttrType.IsUnknown a.id.code → ∃ data, a.value = .raw data ∧ data.length ≤ Blob.limit

theorem sent_eq (a : Attr) : a.sent = { a with flags := a.wireFlags } := by
  rw [sent, wireFlags]
  split <;> rfl

theorem octets_tlv (a : Attr) : a.tlv.octets = a.octets := by
  have hw : lengthWidth a.wireFlags.bits = if a.wireFlags.contains .extendedBit then 2 else 1 := by
    simp only [lengthWidth_eq, Flags.contains_extendedBit]
  rw [Tlv.octets, Attr.octets, ← hw]
  rfl

theorem wireFlags_and (a : Attr) {m : UInt8} (hm : 0xEF &&& m = m) :
    a.wireFlags.bits &&& m = a.flags.bits &&& m := by
  rw [wireFlags]
  split
  · exact a.flags.union_extendedBit_and hm
  · rfl

/-- No length is too great for the place that it is given. -/
theorem fits_tlv {a : Attr} (h : a.body.length ≤ Blob.limit) : a.tlv.Fits := by
  show a.body.length < Octets.count (lengthWidth a.wireFlags.bits)
  rw [lengthWidth_eq]
  split
  · exact Nat.lt_succ_of_le h
  · rename_i hn
    refine Nat.lt_succ_of_le (Nat.le_of_not_lt (fun hlt ↦ hn ?_))
    rw [wireFlags, if_pos hlt, ← Flags.contains_extendedBit]
    cases a.flags with
    | mk b =>
      revert b
      exact forall_octet (by decide +kernel)

theorem body_int {a : Attr} {type : AttrType} {n : UInt32} (hid : a.id = type.id)
    (h : a.value = .int n) :
    a.body = Octets.ofNat (if type.descriptor.length = some 1 then 1 else 4) n.toNat := by
  rw [body, h, descriptor?, hid, AttrType.type?_id]
  rfl

theorem ofNat_toNat_four (n : UInt32) :
    UInt32.ofNat (Octets.toNat (Octets.ofNat 4 n.toNat)) = n := by
  have hlt : n.toNat < Octets.count 4 := n.toNat_lt
  rw [Octets.toNat_ofNat, Nat.mod_eq_of_lt hlt, UInt32.ofNat_toNat]

structure Agrees (a : Attr) (type : AttrType) : Prop where
  length : type.HasLength a.body
  allows : type.Allows a.body
  value : type.sentValue a.body = a.value
  bound : a.body.length ≤ Blob.limit

theorem agrees_of_length {a : Attr} {type : AttrType} {n : Nat}
    (hd : type.descriptor.length = some n) (hn : n ≤ 255) (hl : a.body.length = n)
    (ha : type.Allows a.body) (hv : type.sentValue a.body = a.value) : a.Agrees type := by
  refine ⟨?_, ha, hv, ?_⟩
  · intro m hm
    rw [hd] at hm
    cases hm
    exact hl
  · rw [hl]
    exact Nat.le_trans hn (by decide)

/-- An origin is a number of four octets in the list, and is sent in one. -/
theorem agrees_origin {a : Attr} {n : UInt32} (hid : a.id = AttrType.origin.id)
    (hv : a.value = .int n) (h : n ≤ 2) : a.Agrees .origin := by
  have hb : a.body = [UInt8.ofNat n.toNat] := by
    rw [body_int hid hv]
    simp [AttrType.descriptor, Octets.ofNat, Octets.count]
  have hn : n.toNat ≤ 2 := h
  have hc : (UInt8.ofNat n.toNat).toNat = n.toNat :=
    UInt8.toNat_ofNat_of_lt' (Nat.lt_of_le_of_lt hn (by decide))
  refine agrees_of_length rfl (by decide) (by rw [hb]; rfl) ⟨_, ?_, hb⟩ ?_
  · rw [UInt8.le_iff_toNat_le, hc]
    exact hn
  · rw [hb, hv, AttrType.sentValue, Octets.toNat_cons, hc]
    simp [Octets.toNat, Octets.count]

theorem agrees {a : Attr} {type : AttrType} (hid : a.id = type.id) (h : type.Keeps a.value) :
    a.Agrees type := by
  cases type with
  | origin =>
    cases hv : a.value with
    | int n =>
      rw [hv] at h
      exact agrees_origin hid hv h
    | _ => rw [hv] at h; exact h.elim
  | asPath =>
    cases hv : a.value with
    | asPath data =>
      rw [hv] at h
      have hb : a.body = data := by rw [body, hv]
      exact ⟨(fun n hn ↦ by cases hn), hb ▸ h.1, by rw [hb, hv]; rfl, hb ▸ h.2⟩
    | _ => rw [hv] at h; exact h.elim
  | nextHop =>
    cases hv : a.value with
    | address addr =>
      rw [hv] at h
      have hb : a.body = addr.octets := by rw [body, hv]
      refine agrees_of_length rfl (by decide) ?_ (hb ▸ h) ?_
      · rw [hb, Ipv4.octets, Octets.length_ofNat]
      · rw [hb, hv, AttrType.sentValue, Ipv4.toNat_octets, UInt32.ofNat_toNat]
    | _ => rw [hv] at h; exact h.elim
  | multiExitDisc | localPref =>
    cases hv : a.value with
    | int n =>
      have hb : a.body = Octets.ofNat 4 n.toNat := body_int hid hv
      refine agrees_of_length rfl (by decide) (by rw [hb, Octets.length_ofNat]) trivial ?_
      rw [hb, hv, AttrType.sentValue, ofNat_toNat_four]
    | _ => rw [hv] at h; exact h.elim
  | atomicAggregate =>
    cases hv : a.value with
    | raw data =>
      rw [hv] at h
      have hb : a.body = data := by rw [body, hv]
      have hn : data = [] := h
      exact agrees_of_length rfl (by decide) (by rw [hb, hn]; rfl) trivial (by rw [hb, hv]; rfl)
    | _ => rw [hv] at h; exact h.elim
  | aggregator =>
    cases hv : a.value with
    | raw data =>
      rw [hv] at h
      have hb : a.body = data := by rw [body, hv]
      exact agrees_of_length rfl (by decide) (hb ▸ h) trivial (by rw [hb, hv]; rfl)
    | _ => rw [hv] at h; exact h.elim

theorem id_eq_of_code {a : Attr} {type : AttrType} (hns : a.id.ns = .bgp)
    (h : a.id.code = Numbered.code type) : a.id = type.id := by
  show (⟨a.id.ns, a.id.code⟩ : AttrId) = ⟨.bgp, Numbered.code type⟩
  rw [hns, h]

theorem body_raw {a : Attr} {data : Blob} (h : a.value = .raw data) : a.body = data := by
  rw [body, h]

namespace WellFormed

variable {a : Attr}

theorem agrees (h : a.WellFormed) (hns : a.id.ns = .bgp) {type : AttrType}
    (hc : a.id.code = Numbered.code type) : a.Agrees type :=
  Attr.agrees (id_eq_of_code hns hc) (h.value type hc)

theorem body_length_le (h : a.WellFormed) (hns : a.id.ns = .bgp) : a.body.length ≤ Blob.limit := by
  cases hc : (Numbered.ofCode? a.id.code : Option AttrType) with
  | none =>
    obtain ⟨data, hv, hb⟩ := h.raw ((AttrType.ofCode?_eq_none_iff _).1 hc)
    rwa [body_raw hv]
  | some type => exact (h.agrees hns (Numbered.code_eq_of_ofCode? hc).symm).bound

theorem conforms_tlv (h : a.WellFormed) (hns : a.id.ns = .bgp) : a.tlv.Conforms := by
  refine ⟨?_, ?_, ?_, ?_⟩
  · exact fun type hc ↦ (h.agrees hns hc).length
  · exact fun type hc ↦ (a.wireFlags_and (by decide)).trans (h.category type hc)
  · exact fun type hc ↦ (h.agrees hns hc).allows
  · intro hu
    show a.wireFlags.bits &&& 0x80 ≠ 0
    rw [a.wireFlags_and (by decide)]
    exact h.optional hu

theorem keptValue_tlv (h : a.WellFormed) (hns : a.id.ns = .bgp) : a.tlv.keptValue = a.value := by
  rw [keptValue]
  cases hc : (Numbered.ofCode? a.tlv.code : Option AttrType) with
  | none =>
    obtain ⟨data, hv, -⟩ := h.raw ((AttrType.ofCode?_eq_none_iff _).1 hc)
    rw [hv]
    exact congrArg Value.raw (body_raw hv)
  | some type => exact (h.agrees hns (Numbered.code_eq_of_ofCode? hc).symm).value

/-- What is sent stands for the attribute it was made of. -/
theorem attr_tlv (h : a.WellFormed) (hns : a.id.ns = .bgp) : a.tlv.attr = a.sent := by
  have hf : a.tlv.keptFlags = a.wireFlags.bits := by
    refine keptFlags_eq_self ((a.wireFlags_and (by decide)).trans h.defined) (fun hu ht ↦ ?_)
    show a.wireFlags.bits &&& 0x20 ≠ 0
    rw [a.wireFlags_and (by decide)]
    refine h.partialMark hu ?_
    rw [← a.wireFlags_and (by decide)]
    exact ht
  have hid : AttrId.bgp a.id.code = a.id := by
    rw [AttrId.bgp, ← hns]
  rw [sent_eq]
  show (⟨.bgp a.id.code, ⟨a.tlv.keptFlags⟩, a.tlv.keptValue⟩ : Attr) = ⟨a.id, a.wireFlags, a.value⟩
  rw [hid, hf, h.keptValue_tlv hns]

end WellFormed

end Attr

end PathAttributes
