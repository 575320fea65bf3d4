import PathAttributes.Proofs.BucketTable.Catalogue
import PathAttributes.Proofs.Section.Delimited
import PathAttributes.Proofs.Session.Rewrite
import PathAttributes.Session.Basic

namespace PathAttributes

open AttrList

theorem BucketTable.valuesFit_canonical {high low : AttrList} (hh : high.ValuesFit)
    (hl : low.ValuesFit) : (canonical high low).ValuesFit := by
  intro a ha
  rw [attrs_canonical] at ha
  obtain ⟨b, hb, rfl⟩ := List.mem_map.1 ha
  refine Value.fits_canonicalAttr ?_
  rcases List.mem_append.1 (mem_of_mem_firsts (List.mem_filter.1 hb).1) with hb | hb
  · exact hh b hb
  · exact hl b hb

namespace Peering

variable {p : Peering} {r : Route} {attrs : List Attr} {path bs : Blob}

/-- The path of a list is one with the given AS in front, and no value is longer than can be
announced. -/
structure HasOwnPath (asn : Asn) (attrs : List Attr) : Prop where
  own : ∃ bs path, AsPath.prepend? bs asn = some path ∧
    first? attrs AttrType.asPath.id = some (.bgp .asPath (.asPath path))
  fits : ∀ a ∈ attrs, a.value.Fits

theorem prepend?_eq {n : Asn} (h : (AsPath.extended path n).length ≤ Blob.limit) :
    AsPath.prepend? path n = some (AsPath.extended path n) :=
  if_pos h

theorem hasOwnPath_of_rewrites (h : p.Rewrites r attrs) (hp : p.peerType = .external) :
    HasOwnPath p.localAs attrs := by
  have hinline {v : Value} (hv : v.blob? = none) : v.Fits := by
    intro data hdata
    rw [hv] at hdata
    cases hdata
  have hown {path : Blob} (hl : path.length ≤ Blob.limit) : (Value.asPath path).Fits := by
    intro data hdata
    cases hdata
    exact hl
  cases h with
  | within ho hp' =>
    rw [hp] at hp'
    cases hp'
  | across ho _ hl =>
    refine ⟨⟨r.path, _, prepend?_eq hl, rfl⟩, fun a ha ↦ ?_⟩
    rcases List.mem_cons.1 ha with rfl | ha
    · exact hown hl
    · rw [nextHopOver] at ha
      split at ha
      · cases ha
      · rw [List.mem_singleton.1 ha]
        exact hinline rfl
  | originated =>
    have hl := p.length_firstPath_le
    have hfirst : p.firstPath = AsPath.extended [] p.localAs := by simp only [firstPath, hp]
    refine ⟨⟨[], _, prepend?_eq (hfirst ▸ hl), hfirst ▸ rfl⟩, fun a ha ↦ ?_⟩
    simp only [List.mem_cons, List.not_mem_nil, or_false] at ha
    rcases ha with rfl | rfl | rfl
    · exact hinline rfl
    · exact hown hl
    · exact hinline rfl

theorem hasOwnPath_overrides {l : AttrList} (hp : p.peerType = .external)
    (h : p.overrides r = .ok l) : HasOwnPath p.localAs l.attrs := by
  rcases p.overrides_cases r with ⟨e, he, -⟩ | ⟨attrs, hattrs, -, hw⟩
  · rw [h] at he
    cases he
  · rw [h] at hattrs
    cases hattrs
    obtain ⟨⟨bs, path, hpath, hfirst⟩, hfits⟩ := hasOwnPath_of_rewrites hw hp
    exact ⟨⟨bs, path, hpath, (first?_firsts attrs _).trans hfirst⟩,
      fun a ha ↦ hfits a (mem_of_mem_firsts ha)⟩

end Peering

namespace BucketTable

variable {t : BucketTable} {high low : AttrList} {id : Nat}

/-- The bucket that is given has the canonical attributes, be it an old one or a new one. -/
theorem exists_bucket_of_given (h : (t.getOrCreate high low).result = .ok id) :
    ∃ b, (t.getOrCreate high low).table.get? id = some b ∧
      b.attrs.attrs = (canonical high low).attrs := by
  have hob := t.obtained_getOrCreate high low
  generalize (t.getOrCreate high low).table = t', (t.getOrCreate high low).result = result at *
  cases hob with
  | found hf =>
    cases h
    obtain ⟨b, hb, -, he⟩ := bucketMatches_iff.1 (List.find?_some (find?_eq t _ _ ▸ hf))
    exact ⟨b, hb, he⟩
  | missing hf hm => cases h
  | created hf hm =>
    cases h
    exact ⟨_, Array.getElem?_push_size, rfl⟩
  | grown hf hm =>
    cases h
    exact ⟨_, Array.getElem?_push_size, rfl⟩

theorem missing_of_error {type : AttrType}
    (h : (t.getOrCreate high low).result = .error (.missingMandatory type)) :
    (t.getOrCreate high low).table = t ∧
      Catalogue.firstMissing? (canonical high low) = some type := by
  have hob := t.obtained_getOrCreate high low
  generalize (t.getOrCreate high low).table = t', (t.getOrCreate high low).result = result at *
  cases hob with
  | missing hf hm =>
    cases h
    exact ⟨rfl, hm⟩
  | found hf | created hf hm | grown hf hm => cases h

theorem length_getOrCreate_le (t : BucketTable) (high low : AttrList) :
    (t.getOrCreate high low).table.length ≤ t.length + 1 := by
  have hob := t.obtained_getOrCreate high low
  generalize (t.getOrCreate high low).table = t', (t.getOrCreate high low).result = result at *
  cases hob with
  | found hf => exact Nat.le_succ _
  | missing hf hm => exact Nat.le_succ _
  | created hf hm => exact Nat.le_of_eq (Array.size_push _)
  | grown hf hm => exact Nat.le_of_eq (Array.size_push _)

end BucketTable

namespace Session

variable {s : Session} {r : Route} {l : AttrList} {id : Nat}

theorem buckets_notify (h : s.peering.overrides r = .ok l) :
    (s.notify r).session.buckets = (s.buckets.getOrCreate l r.attrs).table := by
  simp only [notify, h]
  split <;> rfl

/-- A route is sent if nothing speaks against it and its attributes get a bucket. -/
theorem result_notify_eq_some_iff :
    (s.notify r).result = .ok (some id) ↔
      ∃ l, s.peering.overrides r = .ok l ∧ (s.buckets.getOrCreate l r.attrs).result = .ok id := by
  rw [notify]
  cases ho : s.peering.overrides r with
  | error reason => simp
  | ok l =>
    simp only [Except.ok.injEq, exists_eq_left']
    split
    · rename_i hr
      simp [hr]
    · rename_i hr
      simp [hr]

theorem result_notify_eq_none_iff :
    (s.notify r).result = .ok none ↔ ∃ e, s.peering.overrides r = .error e := by
  rw [notify]
  cases ho : s.peering.overrides r with
  | error reason => simp
  | ok l =>
    simp only [reduceCtorEq, exists_false, iff_false]
    split <;> simp

end Session

end PathAttributes
