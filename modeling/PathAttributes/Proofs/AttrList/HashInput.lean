import PathAttributes.Proofs.AttrList.Canonical

namespace PathAttributes

variable {a b : Attr} {v w : Value} {d e r s : Octets} {l m : AttrList}

namespace Octets

theorem ofNat_append_inj {width n k : Nat} (hn : n < count width) (hk : k < count width)
    (h : ofNat width n ++ r = ofNat width k ++ s) : n = k ∧ r = s := by
  obtain ⟨hfront, hrest⟩ := List.append_inj h (by rw [length_ofNat, length_ofNat])
  refine ⟨?_, hrest⟩
  have hnumber := congrArg toNat hfront
  rwa [toNat_ofNat, toNat_ofNat, Nat.mod_eq_of_lt hn, Nat.mod_eq_of_lt hk] at hnumber

theorem counted_append_inj (hd : d.length < count 4) (he : e.length < count 4)
    (h : (ofNat 4 d.length ++ d) ++ r = (ofNat 4 e.length ++ e) ++ s) : d = e ∧ r = s := by
  rw [List.append_assoc, List.append_assoc] at h
  obtain ⟨hlength, hrest⟩ := ofNat_append_inj hd he h
  exact List.append_inj hrest hlength

end Octets

def Value.IsCounted (v : Value) : Prop := ∀ data ∈ v.blob?, data.length < UInt32.size

def AttrList.ValuesCounted (l : AttrList) : Prop := ∀ a ∈ l.attrs, a.value.IsCounted

instance (v : Value) : Decidable v.IsCounted :=
  inferInstanceAs (Decidable (∀ data ∈ v.blob?, data.length < UInt32.size))

instance (l : AttrList) : Decidable l.ValuesCounted :=
  inferInstanceAs (Decidable (∀ a ∈ l.attrs, a.value.IsCounted))

theorem Ipv4.octets_append_inj {x y : Ipv4} (h : x.octets ++ r = y.octets ++ s) :
    x = y ∧ r = s := by
  obtain ⟨hbits, hrest⟩ := Octets.ofNat_append_inj x.bits.toNat_lt y.bits.toNat_lt h
  exact ⟨Ipv4.ext (UInt32.toNat_inj.1 hbits), hrest⟩

/-- Among values of one kind, what is hashed of a value is told from whatever follows. -/
theorem Value.hashInput_append_inj (hk : v.kind = w.kind) (hv : v.IsCounted) (hw : w.IsCounted)
    (h : v.hashInput ++ r = w.hashInput ++ s) : v = w ∧ r = s := by
  cases v <;> cases w <;> simp only [kind, reduceCtorEq] at hk
  case int m n =>
    obtain ⟨hn, hrest⟩ := Octets.ofNat_append_inj m.toNat_lt n.toNat_lt h
    exact ⟨congrArg int (UInt32.toNat_inj.1 hn), hrest⟩
  case routerId x y => exact (Ipv4.octets_append_inj h).imp_left (congrArg routerId)
  case address x y => exact (Ipv4.octets_append_inj h).imp_left (congrArg address)
  case raw d e =>
    exact (Octets.counted_append_inj (hv d rfl) (hw e rfl) h).imp_left (congrArg raw)
  case asPath d e =>
    exact (Octets.counted_append_inj (hv d rfl) (hw e rfl) h).imp_left (congrArg asPath)
  case intSet d e =>
    exact (Octets.counted_append_inj (hv d rfl) (hw e rfl) h).imp_left (congrArg intSet)

structure Attr.SameContent (a b : Attr) : Prop where
  id : a.id = b.id
  kind : a.value.kind = b.value.kind
  value : a.value = b.value

theorem Attr.hashInput_append_inj (ha : a.value.IsCounted) (hb : b.value.IsCounted)
    (h : a.hashInput ++ r = b.hashInput ++ s) : a.SameContent b ∧ r = s := by
  simp only [hashInput, List.cons_append, List.cons.injEq] at h
  obtain ⟨hns, hcode, hkind, hrest⟩ := h
  have hk : a.value.kind = b.value.kind := Numbered.code_injective hkind
  obtain ⟨hvalue, hrest⟩ := Value.hashInput_append_inj hk ha hb hrest
  have hid : a.id = b.id := by
    show (⟨a.id.ns, a.id.code⟩ : AttrId) = ⟨b.id.ns, b.id.code⟩
    rw [Numbered.code_injective hns, hcode]
  exact ⟨⟨hid, hk, hvalue⟩, hrest⟩

namespace AttrList

theorem forall₂_sameContent_of_flatMap {as bs : List Attr} (has : ∀ a ∈ as, a.value.IsCounted)
    (hbs : ∀ b ∈ bs, b.value.IsCounted)
    (h : as.flatMap Attr.hashInput = bs.flatMap Attr.hashInput) :
    List.Forall₂ Attr.SameContent as bs := by
  induction as generalizing bs with
  | nil =>
    cases bs with
    | nil => exact .nil
    | cons b bs => cases h
  | cons a as ih =>
    cases bs with
    | nil => cases h
    | cons b bs =>
      obtain ⟨ha, has⟩ := List.forall_mem_cons.1 has
      obtain ⟨hb, hbs⟩ := List.forall_mem_cons.1 hbs
      obtain ⟨hab, hrest⟩ := Attr.hashInput_append_inj ha hb h
      exact .cons hab (ih has hbs hrest)

theorem flatMap_hashInput_congr {as bs : List Attr} (h : List.Forall₂ Attr.SameContent as bs) :
    as.flatMap Attr.hashInput = bs.flatMap Attr.hashInput := by
  induction h with
  | nil => rfl
  | cons hab _ ih =>
    rw [List.flatMap_cons, List.flatMap_cons, ih, Attr.hashInput, Attr.hashInput, hab.id, hab.value]

def reflagged (l : AttrList) (flags : Attr → Flags) : AttrList :=
  { l with attrs := l.attrs.map (fun a ↦ { a with flags := flags a }) }

theorem hashInput_reflagged (l : AttrList) (flags : Attr → Flags) :
    (l.reflagged flags).hashInput = l.hashInput := by
  refine flatMap_hashInput_congr ?_
  rw [reflagged, List.forall₂_map_left_iff, List.forall₂_same]
  exact fun a _ ↦ ⟨rfl, rfl, rfl⟩

/-- What is hashed of a list tells all of it but the flags. -/
theorem hashInput_eq_iff (hl : l.ValuesCounted) (hm : m.ValuesCounted) :
    (l.hashInput = m.hashInput ↔ List.Forall₂ Attr.SameContent l.attrs m.attrs) ∧
      (∀ flags, (l.reflagged flags).hashInput = l.hashInput) ∧
      (l.same m = true → l.hash = m.hash) ∧ l.hash = Xxh32.hash 0 l.hashInput := by
  refine ⟨⟨?_, ?_⟩, hashInput_reflagged l, ?_, rfl⟩
  · intro h
    exact forall₂_sameContent_of_flatMap hl hm h
  · intro h
    exact flatMap_hashInput_congr h
  · intro hsame
    exact hash_eq_of_attrs (same_iff.1 hsame)

def hollow : AttrList := .ofList [⟨.bgp 8, ⟨0x80⟩, .raw []⟩, ⟨.bgp 9, ⟨0xC0⟩, .raw []⟩]

/-- One attribute with the octets by which the second of the two is hashed. -/
def swallowing : AttrList := .ofList [⟨.bgp 8, ⟨0x80⟩, .raw [1, 9, 3, 0, 0, 0, 0]⟩]

theorem hashInput_eq_iff_swallowing :
    hollow.ValuesCounted ∧ swallowing.ValuesCounted ∧ hollow.hashInput ≠ swallowing.hashInput ∧
      (hollow.reflagged (fun _ ↦ .empty)).hashInput = hollow.hashInput := by
  have hcounted : hollow.ValuesCounted := by decide
  have hcounted' : swallowing.ValuesCounted := by decide
  obtain ⟨hiff, hflags, -⟩ := hashInput_eq_iff hcounted hcounted'
  refine ⟨hcounted, hcounted', ?_, hflags _⟩
  rw [Ne, hiff]
  intro h
  have hlength : 2 = 1 := h.length_eq
  omega

end AttrList

end PathAttributes
