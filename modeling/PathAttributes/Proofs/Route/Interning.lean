import Mathlib.Data.List.Dedup
import PathAttributes.Route.Store

namespace PathAttributes

instance : Std.LawfulEqOrd Attr where
  compare_self := Std.compare_self (α := List Nat)
  eq_of_compare h := Attr.key_injective (Std.LawfulEqOrd.eq_of_compare h)

namespace AttrList

theorem compare_eq_eq_iff {l m : AttrList} : compare l m = .eq ↔ l.attrs = m.attrs :=
  Std.compare_eq_iff_eq (α := List Attr)

end AttrList

theorem Ipv4.eq_of_toNat {a b : Ipv4} (h : a.bits.toNat = b.bits.toNat) : a = b :=
  Ipv4.ext (UInt32.toNat_inj.1 h)

theorem PeerInfo.key_injective {p q : PeerInfo} (h : p.key = q.key) : p = q := by
  simp only [key, List.cons.injEq, and_true] at h
  obtain ⟨haddr, htype, has, hid⟩ := h
  have haddr' := Ipv4.eq_of_toNat haddr
  have htype' := Named.rank_injective htype
  have has' := UInt16.toNat_inj.1 has
  have hid' := Ipv4.eq_of_toNat hid
  cases p
  cases q
  simp_all

namespace RouteOrigin

/-- Where a key ends can be told from its first number. -/
theorem eq_of_key_append {o o' : RouteOrigin} {as bs : List Nat}
    (h : o.key ++ as = o'.key ++ bs) : o = o' ∧ as = bs := by
  cases o with
  | neighbor p =>
    cases o' with
    | neighbor q =>
      have hsplit := List.append_inj (List.cons.inj h).2 rfl
      exact ⟨congrArg neighbor (PeerInfo.key_injective hsplit.1), hsplit.2⟩
    | protocol source => cases (List.cons.inj h).1
  | protocol source =>
    cases o' with
    | neighbor q => cases (List.cons.inj h).1
    | protocol source' =>
      obtain ⟨hrank, hrest⟩ := List.cons.inj (List.cons.inj h).2
      exact ⟨congrArg protocol (Named.rank_injective hrank), hrest⟩

end RouteOrigin

namespace Route

theorem eq_of_optionKey_append {m n : Option Nat} {as bs : List Nat}
    (h : optionKey m ++ as = optionKey n ++ bs) : m = n ∧ as = bs := by
  cases m <;> cases n <;> simp_all [optionKey]

theorem eq_of_key {r s : Route} (h : r.key = s.key) (hattrs : r.attrs = s.attrs) : r = s := by
  obtain ⟨horigin, hrest⟩ := RouteOrigin.eq_of_key_append h
  obtain ⟨hdest, hrest⟩ := List.cons.inj hrest
  obtain ⟨hgateway, hrest⟩ := eq_of_optionKey_append hrest
  rw [← List.append_nil (optionKey _), ← List.append_nil (optionKey (s.ifindex.map _))] at hrest
  have hifindex := (eq_of_optionKey_append hrest).1
  have hdest' := Named.rank_injective hdest
  have hgateway' := Option.map_injective (fun _ _ ↦ Ipv4.eq_of_toNat) hgateway
  have hifindex' := Option.map_injective (fun _ _ ↦ UInt32.toNat_inj.1) hifindex
  cases r
  cases s
  simp_all

/-- Of routes whose lists bear the same mark, those are equal that have the same place in the
order. -/
theorem compare_eq_eq_iff {r s : Route} (h : r.attrs.sorted = s.attrs.sorted) :
    compare r s = .eq ↔ r = s := by
  constructor
  · intro hc
    obtain ⟨hkey, hattrs⟩ := compareLex_eq_eq.1 hc
    have hlist : r.attrs.attrs = s.attrs.attrs := AttrList.compare_eq_eq_iff.1 hattrs
    refine eq_of_key (Std.compare_eq_iff_eq.1 hkey) ?_
    show (⟨r.attrs.attrs, r.attrs.sorted⟩ : AttrList) = ⟨s.attrs.attrs, s.attrs.sorted⟩
    rw [hlist, h]
  · rintro rfl
    exact compareLex_eq_eq.2 ⟨Std.compare_self, AttrList.compare_eq_eq_iff.2 rfl⟩

end Route

namespace Store

variable {s : Store} {r : Route} {routes : List Route} {x : Record}

structure Holds (s : Store) (routes : List Route) : Prop where
  nodup : (s.records.map Record.route).Nodup
  mem : ∀ r, r ∈ s.records.map Record.route ↔ r ∈ routes
  sorted : ∀ r ∈ routes, r.attrs.sorted = true

theorem holds_empty : empty.Holds [] := ⟨List.nodup_nil, fun _ ↦ Iff.rfl, by simp⟩

theorem perm_insert (x : Record) (xs : List Record) : (insert x xs).Perm (x :: xs) := by
  induction xs with
  | nil => exact List.Perm.refl _
  | cons y ys ih =>
    rw [insert]
    split
    · exact List.Perm.refl _
    · exact (ih.cons y).trans (List.Perm.swap x y ys)

def internAll (s : Store) (routes : List Route) : Store :=
  routes.foldl (fun s r ↦ (s.intern r).1) s

theorem mem_of_mem_intern (h : x ∈ (s.intern r).1.records) : x ∈ s.records ∨ x.route = r := by
  rw [intern] at h
  split at h
  · exact .inl h
  · rcases List.mem_cons.1 ((perm_insert _ _).mem_iff.1 h) with rfl | h
    · exact .inr rfl
    · exact .inl h

theorem mem_of_mem_internAll (h : x ∈ (s.internAll routes).records) :
    x ∈ s.records ∨ ∃ r ∈ routes, x.route = r := by
  induction routes generalizing s with
  | nil => exact .inl h
  | cons r routes ih =>
    rcases ih h with h | ⟨q, hq, he⟩
    · exact (mem_of_mem_intern h).imp_right (fun he ↦ ⟨r, List.mem_cons_self, he⟩)
    · exact .inr ⟨q, List.mem_cons_of_mem r hq, he⟩

/-- In whatever store, the record that a route is given differs from it at most in the mark of the
list. -/
theorem intern_spec (s : Store) (r : Route) :
    (s.intern r).2 ∈ (s.intern r).1.records ∧
      ∃ l : AttrList, l.attrs = r.attrs.attrs ∧ (s.intern r).2.route = { r with attrs := l } := by
  rw [Store.intern]
  cases hf : s.find? r with
  | some x =>
    have hc : compare x.route r = .eq := by simpa using List.find?_some hf
    obtain ⟨hkey, hattrs⟩ := compareLex_eq_eq.1 hc
    refine ⟨List.mem_of_find?_eq_some hf, x.route.attrs, AttrList.compare_eq_eq_iff.1 hattrs, ?_⟩
    exact Route.eq_of_key (Std.compare_eq_iff_eq.1 hkey) rfl
  | none => exact ⟨(perm_insert _ _).mem_iff.2 List.mem_cons_self, r.attrs, rfl, rfl⟩

namespace Holds

theorem size_eq (h : s.Holds routes) : s.size = routes.dedup.length := by
  have hperm : (s.records.map Record.route).Perm routes.dedup :=
    (List.perm_ext_iff_of_nodup h.nodup routes.nodup_dedup).2
      (fun r ↦ (h.mem r).trans List.mem_dedup.symm)
  rw [size, ← List.length_map, hperm.length_eq]

theorem compare_eq_eq_iff (h : s.Holds routes) (hr : r.attrs.sorted = true) (hx : x ∈ s.records) :
    compare x.route r = .eq ↔ x.route = r := by
  have hs := h.sorted x.route ((h.mem _).1 (List.mem_map_of_mem hx))
  exact Route.compare_eq_eq_iff (hs.trans hr.symm)

/-- A route is given the record that it was given before, or else a new one. -/
theorem intern (h : s.Holds routes) (hr : r.attrs.sorted = true) :
    (s.intern r).1.Holds (routes ++ [r]) ∧ (s.intern r).2 ∈ (s.intern r).1.records ∧
      (s.intern r).2.route = r := by
  have hsorted : ∀ q ∈ routes ++ [r], q.attrs.sorted = true :=
    List.forall_mem_append.2 ⟨h.sorted, by simpa using hr⟩
  rw [Store.intern]
  cases hf : s.find? r with
  | some x =>
    have hx : x ∈ s.records := List.mem_of_find?_eq_some hf
    have hroute : x.route = r :=
      (h.compare_eq_eq_iff hr hx).1 (by simpa using List.find?_some hf)
    have hmem : r ∈ routes := (h.mem r).1 (hroute ▸ List.mem_map_of_mem hx)
    refine ⟨⟨h.nodup, fun q ↦ ?_, hsorted⟩, hx, hroute⟩
    rw [h.mem, List.mem_append, List.mem_singleton]
    exact ⟨.inl, fun hq ↦ hq.elim id (fun he ↦ he ▸ hmem)⟩
  | none =>
    have hnew : r ∉ s.records.map Record.route := by
      intro hm
      obtain ⟨x, hx, hroute⟩ := List.mem_map.1 hm
      have hne := List.find?_eq_none.1 hf x hx
      exact hne (by simpa using (h.compare_eq_eq_iff hr hx).2 hroute)
    have hperm := (perm_insert ⟨s.last + 1, r⟩ s.records).map Record.route
    refine ⟨⟨?_, fun q ↦ ?_, hsorted⟩, ?_, rfl⟩
    · exact hperm.nodup_iff.2 (List.nodup_cons.2 ⟨hnew, h.nodup⟩)
    · rw [hperm.mem_iff, List.map_cons, List.mem_cons, h.mem, List.mem_append, List.mem_singleton]
      exact or_comm
    · exact (perm_insert _ _).mem_iff.2 List.mem_cons_self

end Holds

end Store

end PathAttributes
