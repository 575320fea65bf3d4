import PathAttributes.AttrList.Hash
import PathAttributes.Proofs.AttrList.First
import PathAttributes.Proofs.IntSet.Canonical

namespace PathAttributes

open AttrList

/-- Attributes that differ in nothing but how the members of a set are written. -/
structure Attr.Alike (a b : Attr) : Prop where
  id : a.id = b.id
  flags : a.flags = b.flags
  value : a.value = b.value ∨ ∃ s t, a.value = .intSet s ∧ b.value = .intSet t ∧
    IntSet.SameMembers s t ∧ IntSet.HasRoom s

def Value.Fits (v : Value) : Prop := ∀ data ∈ v.blob?, data.length ≤ Blob.limit

def AttrList.ValuesFit (l : AttrList) : Prop := ∀ a ∈ l.attrs, a.value.Fits

instance (v : Value) : Decidable v.Fits :=
  inferInstanceAs (Decidable (∀ data ∈ v.blob?, data.length ≤ Blob.limit))

instance (l : AttrList) : Decidable l.ValuesFit :=
  inferInstanceAs (Decidable (∀ a ∈ l.attrs, a.value.Fits))

namespace AttrList

variable {attrs : List Attr} {l m : AttrList}

theorem same_iff : l.same m = true ↔ l.attrs = m.attrs := by
  rw [same, beq_iff_eq]

theorem hash_eq_of_attrs (h : l.attrs = m.attrs) : l.hash = m.hash := by
  rw [hash, hash, hashInput, hashInput, h]

theorem id_canonicalAttr (a : Attr) : (canonicalAttr a).id = a.id := by
  rw [canonicalAttr]
  split <;> rfl

theorem canonicalAttr_eq_iff {a b : Attr} : canonicalAttr a = canonicalAttr b ↔ a.Alike b := by
  have halike : a.Alike b ↔ a.id = b.id ∧ a.flags = b.flags ∧ (a.value = b.value ∨ ∃ s t,
      a.value = .intSet s ∧ b.value = .intSet t ∧ IntSet.SameMembers s t ∧ IntSet.HasRoom s) :=
    ⟨fun h ↦ ⟨h.id, h.flags, h.value⟩, fun ⟨hi, hf, hv⟩ ↦ ⟨hi, hf, hv⟩⟩
  rw [halike]
  cases a with
  | mk i f v =>
    cases b with
    | mk j g w => cases v <;> cases w <;> simp [canonicalAttr, IntSet.canonical_eq_iff]

end AttrList

theorem Value.fits_canonicalAttr {a : Attr} (h : a.value.Fits) : (canonicalAttr a).value.Fits := by
  rw [canonicalAttr]
  split
  · rename_i data hv
    intro canonical hc
    cases hc
    exact IntSet.length_canonical_le (h data (by rw [hv]; rfl))
  · exact h

/-- What the canonical form makes of a value: the numbers of a set are written in ascending order,
each but once, and nothing else changes. -/
inductive Value.Canonizes : Value → Value → Prop
  | kept {v : Value} (h : ∀ s, v = .intSet s → ¬4 ∣ s.length) : Canonizes v v
  | ordered {s : Octets} {ms : List UInt32} (hd : 4 ∣ s.length) (hms : ms.Pairwise (· < ·))
    (hmem : ∀ m, m ∈ ms ↔ IntSet.HasMember s m) (hle : (IntSet.octets ms).length ≤ s.length) :
    Canonizes (.intSet s) (.intSet (IntSet.octets ms))

namespace Attr

variable {a b : Attr}

structure Canonizes (a b : Attr) : Prop where
  id : b.id = a.id
  flags : b.flags = a.flags
  value : a.value.Canonizes b.value

structure Equivalent (a b : Attr) : Prop where
  id : a.id = b.id
  flags : a.flags = b.flags
  value : a.value = b.value ∨ ∃ s t, a.value = .intSet s ∧ b.value = .intSet t ∧
    IntSet.SameMembers s t

theorem Alike.equivalent (h : a.Alike b) : a.Equivalent b := by
  refine ⟨h.id, h.flags, h.value.imp_right ?_⟩
  rintro ⟨s, t, hs, ht, hm, -⟩
  exact ⟨s, t, hs, ht, hm⟩

theorem Equivalent.alike (h : a.Equivalent b) (hf : a.value.Fits) : a.Alike b := by
  refine ⟨h.id, h.flags, h.value.imp_right ?_⟩
  rintro ⟨s, t, hs, ht, hm⟩
  have hlength : s.length ≤ Blob.limit := hf s (by rw [hs]; rfl)
  exact ⟨s, t, hs, ht, hm, IntSet.hasRoom_of_length_le hm.left hlength⟩

theorem canonizes_canonicalAttr (hf : a.value.Fits) : a.Canonizes (canonicalAttr a) := by
  rw [canonicalAttr]
  split
  · rename_i s hs
    by_cases hd : 4 ∣ s.length
    · obtain ⟨ms, hms, hlt, hmem, hle⟩ := IntSet.exists_canonical_eq hd (hf s (by rw [hs]; rfl))
      refine ⟨rfl, rfl, ?_⟩
      rw [hs, hms]
      exact .ordered hd hlt hmem hle
    · refine ⟨rfl, rfl, ?_⟩
      rw [hs, IntSet.canonical_of_not_dvd hd]
      refine .kept ?_
      rintro t ht
      cases ht
      exact hd
  · rename_i hne
    exact ⟨rfl, rfl, .kept (fun s hs ↦ absurd hs (hne s))⟩

end Attr

namespace AttrList

variable {attrs : List Attr} {l m : AttrList}

theorem canonicalAttr_canonicalAttr (a : Attr) :
    canonicalAttr (canonicalAttr a) = canonicalAttr a := by
  rcases a with ⟨id, flags, v⟩
  cases v <;> simp [canonicalAttr, IntSet.canonical_canonical]

theorem Ascending.map_canonicalAttr (h : Ascending attrs) :
    Ascending (attrs.map canonicalAttr) := by
  rw [Ascending, List.pairwise_map]
  simp only [id_canonicalAttr]
  exact h

theorem normalize_normalize (l : AttrList) : l.normalize.normalize = l.normalize := by
  have hsort : l.normalize.sort = l.normalize := sort_of_sorted (sorted_sort l)
  rw [normalize, hsort, normalize, List.map_map]
  exact congrArg (AttrList.mk · l.sort.sorted)
    (List.map_congr_left (fun a _ ↦ canonicalAttr_canonicalAttr a))

theorem normalize_eq_iff :
    l.normalize = m.normalize ↔ List.Forall₂ Attr.Alike l.sort.attrs m.sort.attrs := by
  have hattrs : l.normalize = m.normalize ↔
      l.sort.attrs.map canonicalAttr = m.sort.attrs.map canonicalAttr := by
    rw [normalize, normalize, AttrList.mk.injEq, sorted_sort, sorted_sort, eq_self, and_true]
  rw [hattrs, ← List.forall₂_eq_eq_eq, List.forall₂_map_left_iff, List.forall₂_map_right_iff]
  simp only [canonicalAttr_eq_iff]

theorem ValuesFit.forall₂_alike_iff (hl : l.ValuesFit) :
    List.Forall₂ Attr.Alike l.sort.attrs m.sort.attrs ↔
      List.Forall₂ Attr.Equivalent l.sort.attrs m.sort.attrs := by
  refine ⟨fun h ↦ h.imp (fun _ _ h ↦ h.equivalent), fun h ↦ ?_⟩
  have hfits : ∀ a ∈ l.sort.attrs, a.value.Fits := fun a ha ↦ hl a (mem_of_mem_sort ha)
  exact ((List.forall₂_and_left _ _).2 ⟨hfits, h⟩).imp (fun _ _ ⟨hf, he⟩ ↦ he.alike hf)

theorem ValuesFit.canonizes_normalize (hl : l.ValuesFit) :
    List.Forall₂ Attr.Canonizes l.sort.attrs l.normalize.attrs := by
  rw [normalize, List.forall₂_map_right_iff, List.forall₂_same]
  exact fun a ha ↦ Attr.canonizes_canonicalAttr (hl a (mem_of_mem_sort ha))

/-- The canonical form sorts a list, and writes its sets in one way. Lists have one canonical form
exactly if they have the same attributes after sorting, up to how the members of sets are written. -/
theorem canonical_form (hl : l.ValuesFit) :
    l.normalize.sorted = true ∧ List.Forall₂ Attr.Canonizes l.sort.attrs l.normalize.attrs ∧
      l.normalize.normalize = l.normalize ∧
      ∀ m : AttrList,
        (List.Forall₂ Attr.Equivalent l.sort.attrs m.sort.attrs →
          l.normalize.same m.normalize = true ∧ l.normalize.hash = m.normalize.hash ∧
            l.normalize.encode = m.normalize.encode) ∧
        (l.normalize.same m.normalize = true →
          List.Forall₂ Attr.Equivalent l.sort.attrs m.sort.attrs) := by
  refine ⟨sorted_sort l, hl.canonizes_normalize, normalize_normalize l, ?_⟩
  intro m
  rw [← hl.forall₂_alike_iff, ← normalize_eq_iff]
  constructor
  · intro h
    rw [h]
    exact ⟨same_iff.2 rfl, rfl, rfl⟩
  · intro h
    exact eq_of_attrs (same_iff.1 h) ((sorted_sort l).trans (sorted_sort m).symm)

def scattered : AttrList := .ofList
  [⟨.bgp 9, ⟨0x80⟩, .intSet [3, 1, 2]⟩, ⟨.bgp 8, ⟨0x80⟩, .intSet (IntSet.octets [3, 1, 2, 1])⟩]

def gathered : AttrList := .ofList
  [⟨.bgp 8, ⟨0x80⟩, .intSet (IntSet.octets [2, 3, 1])⟩, ⟨.bgp 9, ⟨0x80⟩, .intSet [3, 1, 2]⟩,
    ⟨.bgp 8, ⟨0x80⟩, .int 1⟩]

theorem canonical_form_scattered :
    scattered.ValuesFit ∧
      List.Forall₂ Attr.Equivalent scattered.sort.attrs gathered.sort.attrs ∧
      scattered.normalize.same gathered.normalize = true ∧
      scattered.normalize.encode = gathered.normalize.encode := by
  have hfits : scattered.ValuesFit := by
    intro a ha data hdata
    simp only [scattered, ofList, List.mem_cons, List.not_mem_nil, or_false] at ha
    rcases ha with rfl | rfl <;> cases hdata <;> decide
  have hset : IntSet.SameMembers (IntSet.octets [3, 1, 2, 1]) (IntSet.octets [2, 3, 1]) :=
    IntSet.sameMembers_octets.2 (fun m ↦ by simp; grind)
  have hequiv : List.Forall₂ Attr.Equivalent scattered.sort.attrs gathered.sort.attrs :=
    .cons ⟨rfl, rfl, .inr ⟨_, _, rfl, rfl, hset⟩⟩ (.cons ⟨rfl, rfl, .inl rfl⟩ .nil)
  obtain ⟨-, -, -, h⟩ := canonical_form hfits
  obtain ⟨hsame, -, hencode⟩ := (h gathered).1 hequiv
  exact ⟨hfits, hequiv, hsame, hencode⟩

example : scattered.normalize = ⟨[⟨.bgp 8, ⟨0x80⟩, .intSet (IntSet.octets [1, 2, 3])⟩,
    ⟨.bgp 9, ⟨0x80⟩, .intSet [3, 1, 2]⟩], true⟩ := by cbv

end AttrList

end PathAttributes
