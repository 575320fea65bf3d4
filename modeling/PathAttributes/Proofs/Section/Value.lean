import PathAttributes.Proofs.AsPath.Whole
import PathAttributes.Proofs.FlagBits

namespace PathAttributes

namespace Ipv4

/-- Four octets that are the address of one host: not the unspecified or the broadcast address, and
neither in the loopback net nor in one of the multicast nets. -/
def IsHost : Octets → Prop
  | [a, b, c, d] =>
    [a, b, c, d] ≠ [0, 0, 0, 0] ∧ [a, b, c, d] ≠ [255, 255, 255, 255] ∧ a ≠ 127 ∧
      (a < 224 ∨ 239 < a)
  | _ => False

theorem exists_octets {v : Octets} (h : v.length = 4) :
    ∃ a : Ipv4, a.octets = v ∧ a.bits = UInt32.ofNat (Octets.toNat v) := by
  refine ⟨⟨UInt32.ofNat (Octets.toNat v)⟩, ?_, rfl⟩
  have hlt : Octets.toNat v < Octets.count 4 := h ▸ Octets.toNat_lt v
  have hback := Octets.ofNat_toNat v
  rw [h] at hback
  rw [octets, UInt32.toNat_ofNat_of_lt' hlt, hback]

theorem toNat_octets (a : Ipv4) : Octets.toNat a.octets = a.bits.toNat := by
  rw [octets, Octets.toNat_ofNat]
  exact Nat.mod_eq_of_lt a.bits.toNat_lt

theorem ofOctets?_octets (a : Ipv4) : ofOctets? a.octets = some a := by
  have h := ofOctets?_octets_append a []
  rwa [List.append_nil] at h

theorem isUsable_iff (a : Ipv4) : a.isUsable = true ↔ IsHost a.octets := by
  obtain ⟨x, y, z, w, h⟩ : ∃ x y z w, a.octets = [x, y, z, w] := ⟨_, _, _, _, rfl⟩
  have hn : a.bits.toNat = ((x.toNat * 256 + y.toNat) * 256 + z.toNat) * 256 + w.toNat := by
    rw [← toNat_octets, h]
    simp only [Octets.toNat, List.foldl_cons, List.foldl_nil]
    omega
  have hx := x.toNat_lt
  have hy := y.toNat_lt
  have hz := z.toNat_lt
  have hw := w.toNat_lt
  rw [h]
  simp only [isUsable, IsHost, hn, ne_eq, List.cons.injEq, ← UInt32.toNat_inj, ← UInt8.toNat_inj,
    UInt8.lt_iff_toNat_lt, Bool.not_eq_true', Bool.or_eq_false_iff, beq_eq_false_iff_ne,
    Bool.and_eq_false_iff, decide_eq_false_iff_not, UInt32.reduceToNat, UInt8.reduceToNat, and_true]
  omega

end Ipv4

namespace AttrType

/-- The values that are laid down for an attribute: an origin is at most two, a path is made of
whole segments, and a next hop is the address of a host. -/
def Allows : AttrType → Octets → Prop
  | origin, v => ∃ code : UInt8, code ≤ 2 ∧ v = [code]
  | asPath, v => AsPath.IsWhole v
  | nextHop, v => Ipv4.IsHost v
  | _, _ => True

def sentValue : AttrType → Octets → Value
  | origin, v | multiExitDisc, v | localPref, v => .int (UInt32.ofNat (Octets.toNat v))
  | nextHop, v => .address ⟨UInt32.ofNat (Octets.toNat v)⟩
  | asPath, v => .asPath v
  | atomicAggregate, v | aggregator, v => .raw v

theorem value_descriptor_kind (type : AttrType) (v : Octets) :
    type.descriptor.kind.value v = type.sentValue v := by
  cases type <;> rfl

def HasLength (type : AttrType) (v : Octets) : Prop :=
  ∀ n, type.descriptor.length = some n → v.length = n

theorem hasLength_iff (type : AttrType) (v : Octets) :
    type.HasLength v ↔ type.descriptor.length.any (· ≠ v.length) = false := by
  rw [HasLength]
  cases type.descriptor.length with
  | none => simp
  | some n => simp [eq_comm (a := n)]

theorem checkOrigin_singleton (peer : PeerType) (code : UInt8) :
    Descriptor.checkOrigin peer [code] = if code ≤ 2 then .ok () else .error .invalidOrigin := by
  have h : (Numbered.ofCode? code : Option Origin).isSome = decide (code ≤ 2) := by
    revert code
    exact forall_octet (by decide +kernel)
  rw [Descriptor.checkOrigin]
  cases hc : (Numbered.ofCode? code : Option Origin) <;> simp_all

theorem validate_origin (peer : PeerType) {v : Octets} (hl : origin.HasLength v) :
    (origin.Allows v → origin.descriptor.validate peer v = .ok ()) ∧
      (¬origin.Allows v → origin.descriptor.validate peer v = .error .invalidOrigin) := by
  obtain ⟨code, rfl⟩ := List.length_eq_one_iff.1 (hl 1 rfl)
  have hv : origin.descriptor.validate peer [code] = _ := checkOrigin_singleton peer code
  rw [hv]
  constructor
  · rintro ⟨code', hle, he⟩
    obtain ⟨rfl, -⟩ := List.cons.inj he
    rw [if_pos hle]
  · intro h
    rw [if_neg (fun hle ↦ h ⟨code, hle, rfl⟩)]

theorem validate_nextHop (peer : PeerType) {v : Octets} (hl : nextHop.HasLength v) :
    (nextHop.Allows v → nextHop.descriptor.validate peer v = .ok ()) ∧
      (¬nextHop.Allows v → nextHop.descriptor.validate peer v = .error .invalidNextHop) := by
  obtain ⟨a, rfl, -⟩ := Ipv4.exists_octets (hl 4 rfl)
  have hv : nextHop.descriptor.validate peer a.octets =
      if (some a).any (·.isUsable) then .ok () else .error .invalidNextHop :=
    congrArg (fun r ↦ if Option.any _ r then _ else _) (Ipv4.ofOctets?_octets a)
  have ha : nextHop.Allows a.octets ↔ a.isUsable = true := (Ipv4.isUsable_iff a).symm
  rw [hv, ha]
  exact ⟨fun h ↦ if_pos h, fun h ↦ if_neg h⟩

theorem validate_asPath (peer : PeerType) (v : Octets) :
    (asPath.Allows v → asPath.descriptor.validate peer v = .ok ()) ∧
      (¬asPath.Allows v → asPath.descriptor.validate peer v = .error .malformedAsPath) := by
  have hv : asPath.descriptor.validate peer v =
      if AsPath.isValid v then .ok () else .error .malformedAsPath := rfl
  have ha : asPath.Allows v ↔ AsPath.isValid v = true := (AsPath.isValid_iff v).symm
  rw [hv, ha]
  exact ⟨fun h ↦ if_pos h, fun h ↦ if_neg h⟩

/-- A value that is allowed is taken, save that a preference is not taken from another AS. -/
theorem validate_of_allows {peer : PeerType} {type : AttrType} {v : Octets}
    (hl : type.HasLength v) (h : type.Allows v) :
    type.descriptor.validate peer v =
      if peer = .external ∧ type = .localPref then .error .discard else .ok () := by
  cases type with
  | origin => simpa using (validate_origin peer hl).1 h
  | asPath => simpa using (validate_asPath peer v).1 h
  | nextHop => simpa using (validate_nextHop peer hl).1 h
  | localPref => cases peer <;> rfl
  | multiExitDisc | atomicAggregate | aggregator => simp [Descriptor.validate, descriptor]

end AttrType

end PathAttributes
