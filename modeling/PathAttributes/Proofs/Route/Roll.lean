import PathAttributes.Proofs.AttrList.Interchange
import PathAttributes.Proofs.Route.Interning

namespace PathAttributes

instance : Std.TransOrd Attr := inferInstanceAs (Std.TransCmp (compareOn Attr.key))

instance : Std.TransOrd AttrList := inferInstanceAs (Std.TransCmp (compareOn AttrList.attrs))

namespace Route

variable {r q : Route}

instance : Std.TransOrd Route :=
  inferInstanceAs (Std.TransCmp (compareLex (compareOn key) (compareOn attrs)))

/-- Equality of routes, whatever the marks of their lists. -/
structure Same (r q : Route) : Prop where
  origin : r.origin = q.origin
  dest : r.dest = q.dest
  gateway : r.gateway = q.gateway
  ifindex : r.ifindex = q.ifindex
  attrs : r.attrs.same q.attrs = true

theorem compare_eq_eq_iff_same : compare r q = .eq ↔ r.Same q := by
  constructor
  · intro h
    obtain ⟨hkey, hattrs⟩ := compareLex_eq_eq.1 h
    have hr : r = { q with attrs := r.attrs } := eq_of_key (Std.compare_eq_iff_eq.1 hkey) rfl
    have hsame : r.attrs.same q.attrs = true :=
      AttrList.same_iff.2 (AttrList.compare_eq_eq_iff.1 hattrs)
    exact ⟨by rw [hr], by rw [hr], by rw [hr], by rw [hr], hsame⟩
  · rintro ⟨horigin, hdest, hgateway, hifindex, hattrs⟩
    have hkey : r.key = q.key := by
      rw [key, key, horigin, hdest, hgateway, hifindex]
    exact compareLex_eq_eq.2 ⟨Std.compare_eq_iff_eq.2 hkey,
      AttrList.compare_eq_eq_iff.2 (AttrList.same_iff.1 hattrs)⟩

instance : DecidableRel Same := fun _ _ ↦ decidable_of_iff _ compare_eq_eq_iff_same

theorem Same.symm (h : r.Same q) : q.Same r :=
  compare_eq_eq_iff_same.1 (Std.OrientedCmp.eq_symm (compare_eq_eq_iff_same.2 h))

theorem Same.trans {p : Route} (h : r.Same q) (h' : q.Same p) : r.Same p :=
  compare_eq_eq_iff_same.1
    (Std.TransCmp.eq_trans (compare_eq_eq_iff_same.2 h) (compare_eq_eq_iff_same.2 h'))

def enrol (roll : List Route) (r : Route) : List Route :=
  if ∃ q ∈ roll, q.Same r then roll else roll ++ [r]

def appearances (routes : List Route) : List Route := routes.foldl enrol []

theorem mem_of_mem_enrol {roll : List Route} (h : q ∈ enrol roll r) : q ∈ roll ∨ q = r := by
  rw [enrol] at h
  split at h
  · exact .inl h
  · simpa using h

theorem mem_of_mem_foldl_enrol {roll routes : List Route} (h : q ∈ routes.foldl enrol roll) :
    q ∈ roll ∨ q ∈ routes := by
  induction routes generalizing roll with
  | nil => exact .inl h
  | cons r routes ih =>
    rcases ih h with h | h
    · rcases mem_of_mem_enrol h with h | rfl
      · exact .inl h
      · exact .inr List.mem_cons_self
    · exact .inr (List.mem_cons_of_mem r h)

end Route

namespace Store

open Route

variable {s : Store} {r q : Route} {roll routes : List Route} {x y : Record} {xs : List Record}

def handles : Store → List Route → List Record
  | _, [] => []
  | s, r :: routes => (s.intern r).2 :: handles (s.intern r).1 routes

def numbered (roll : List Route) : List Record :=
  (roll.zipIdx 1).map (fun e ↦ ⟨.ofNat e.2, e.1⟩)

theorem numbered_concat (roll : List Route) (r : Route) :
    numbered (roll ++ [r]) = numbered roll ++ [⟨.ofNat (roll.length + 1), r⟩] := by
  rw [numbered, List.zipIdx_append, List.map_append, Nat.add_comm]
  rfl

theorem mem_numbered :
    x ∈ numbered roll ↔ ∃ k, roll[k]? = some x.route ∧ x.index = .ofNat (k + 1) := by
  simp only [numbered, List.mem_map, List.mem_zipIdx_iff_le_and_getElem?_sub, Prod.exists]
  constructor
  · rintro ⟨r, i, ⟨hle, hr⟩, rfl⟩
    exact ⟨i - 1, hr, by rw [Nat.sub_add_cancel hle]⟩
  · rintro ⟨k, hk, hi⟩
    refine ⟨x.route, k + 1, ⟨by omega, by rwa [Nat.add_sub_cancel]⟩, ?_⟩
    rw [← hi]

theorem length_numbered (roll : List Route) : (numbered roll).length = roll.length := by
  rw [numbered, List.length_map, List.length_zipIdx]

theorem eq_of_index_eq (hfew : roll.length < UInt64.size) (hx : x ∈ numbered roll)
    (hy : y ∈ numbered roll) (h : x.index = y.index) : x = y := by
  obtain ⟨j, hj, hxi⟩ := mem_numbered.1 hx
  obtain ⟨k, hk, hyi⟩ := mem_numbered.1 hy
  have hjlt := (List.getElem?_eq_some_iff.1 hj).1
  have hklt := (List.getElem?_eq_some_iff.1 hk).1
  have hjk : j + 1 = k + 1 := by
    rw [hxi, hyi, ← UInt64.toNat_inj, UInt64.toNat_ofNat_of_lt' (by omega),
      UInt64.toNat_ofNat_of_lt' (by omega)] at h
    exact h
  cases hjk
  have hroute : x.route = y.route := Option.some.inj (hj.symm.trans hk)
  show (⟨x.index, x.route⟩ : Record) = ⟨y.index, y.route⟩
  rw [h, hroute]

def Ordered (xs : List Record) : Prop := xs.Pairwise (fun x y ↦ compare x.route y.route = .lt)

theorem ordered_insert (h : Ordered xs) (hx : ∀ y ∈ xs, compare x.route y.route ≠ .eq) :
    Ordered (insert x xs) := by
  induction xs with
  | nil => exact List.pairwise_singleton _ x
  | cons y ys ih =>
    obtain ⟨hy, hys⟩ := List.pairwise_cons.1 h
    obtain ⟨hxy, hxys⟩ := List.forall_mem_cons.1 hx
    rw [insert]
    split
    · rename_i hlt
      have hlt : compare x.route y.route = .lt := by simpa using hlt
      refine List.pairwise_cons.2 ⟨List.forall_mem_cons.2 ⟨hlt, fun z hz ↦ ?_⟩, h⟩
      exact Std.TransCmp.lt_trans hlt (hy z hz)
    · rename_i hlt
      have hyx : compare y.route x.route = .lt := by
        rw [← Std.OrientedCmp.gt_iff_lt]
        cases hc : compare x.route y.route <;> simp_all
      refine List.pairwise_cons.2 ⟨fun z hz ↦ ?_, ih hys hxys⟩
      rcases List.mem_cons.1 ((perm_insert x ys).mem_iff.1 hz) with rfl | hz
      · exact hyx
      · exact hy z hz

theorem Ordered.eq_of_same (h : Ordered xs) (hx : x ∈ xs) (hy : y ∈ xs)
    (hs : x.route.Same y.route) : x = y := by
  by_contra hne
  have hlt := h.imp (S := fun x y ↦ ¬x.route.Same y.route) (fun hlt hs ↦ by
    rw [compare_eq_eq_iff_same.2 hs] at hlt
    cases hlt)
  have : Std.Symm (fun x y : Record ↦ ¬x.route.Same y.route) := ⟨fun _ _ hn hs ↦ hn hs.symm⟩
  exact hlt.forall hx hy hne hs

structure Enrols (s : Store) (roll : List Route) : Prop where
  last : s.last = .ofNat roll.length
  perm : s.records.Perm (numbered roll)
  ordered : Ordered s.records

theorem enrols_empty : empty.Enrols [] := ⟨rfl, .nil, .nil⟩

namespace Enrols

theorem exists_same_iff (h : s.Enrols roll) :
    (∃ q ∈ roll, q.Same r) ↔ ∃ x ∈ s.records, x.route.Same r := by
  simp only [h.perm.mem_iff, mem_numbered]
  constructor
  · rintro ⟨q, hq, hs⟩
    obtain ⟨k, hk⟩ := List.mem_iff_getElem?.1 hq
    exact ⟨⟨.ofNat (k + 1), q⟩, ⟨k, hk, rfl⟩, hs⟩
  · rintro ⟨x, ⟨k, hk, -⟩, hs⟩
    exact ⟨x.route, List.mem_of_getElem? hk, hs⟩

theorem intern_new (h : s.Enrols roll) (hnew : ¬∃ q ∈ roll, q.Same r) :
    (s.intern r).1.Enrols (roll ++ [r]) ∧ (s.intern r).2 = ⟨.ofNat (roll.length + 1), r⟩ := by
  rw [h.exists_same_iff] at hnew
  have hfind : s.find? r = none := by
    refine List.find?_eq_none.2 (fun x hx he ↦ hnew ⟨x, hx, ?_⟩)
    exact compare_eq_eq_iff_same.1 (by simpa using he)
  have hlast : s.last + 1 = .ofNat (roll.length + 1) := by
    rw [h.last, UInt64.ofNat_add]
    rfl
  rw [Store.intern, hfind]
  refine ⟨⟨?_, ?_, ?_⟩, ?_⟩
  · rw [List.length_append]
    exact hlast
  · rw [numbered_concat]
    refine (perm_insert _ _).trans (((h.perm.cons _).trans ?_))
    rw [hlast]
    exact (List.perm_append_singleton _ _).symm
  · exact ordered_insert h.ordered (fun y hy he ↦
      hnew ⟨y, hy, (compare_eq_eq_iff_same.1 he).symm⟩)
  · rw [hlast]

theorem intern_old (h : s.Enrols roll) (hold : ∃ q ∈ roll, q.Same r) : (s.intern r).1 = s := by
  obtain ⟨x, hx, hs⟩ := h.exists_same_iff.1 hold
  rw [Store.intern]
  cases hf : s.find? r with
  | some y => rfl
  | none =>
    have hne := List.find?_eq_none.1 hf x hx
    rw [compare_eq_eq_iff_same.2 hs] at hne
    exact absurd rfl hne

theorem intern (h : s.Enrols roll) (r : Route) : (s.intern r).1.Enrols (enrol roll r) := by
  rw [enrol]
  split
  · rename_i hold
    rw [h.intern_old hold]
    exact h
  · rename_i hnew
    exact (h.intern_new hnew).1

theorem internAll (h : s.Enrols roll) (routes : List Route) :
    (s.internAll routes).Enrols (routes.foldl enrol roll) := by
  induction routes generalizing s roll with
  | nil => exact h
  | cons r routes ih => exact ih (h.intern r)

theorem size_eq (h : s.Enrols roll) : s.size = roll.length := by
  rw [size, h.perm.length_eq, length_numbered]

end Enrols

theorem mem_intern_of_mem (hx : x ∈ s.records) (r : Route) : x ∈ (s.intern r).1.records := by
  rw [intern]
  split
  · exact hx
  · exact (perm_insert _ _).mem_iff.2 (List.mem_cons_of_mem _ hx)

theorem mem_internAll_of_mem (hx : x ∈ s.records) (routes : List Route) :
    x ∈ (s.internAll routes).records := by
  induction routes generalizing s with
  | nil => exact hx
  | cons r routes ih => exact ih (mem_intern_of_mem hx r)

theorem length_handles (s : Store) (routes : List Route) :
    (s.handles routes).length = routes.length := by
  induction routes generalizing s with
  | nil => rfl
  | cons r routes ih => rw [handles, List.length_cons, ih, List.length_cons]

theorem handles_append (s : Store) (before after : List Route) :
    s.handles (before ++ after) = s.handles before ++ (s.internAll before).handles after := by
  induction before generalizing s with
  | nil => rfl
  | cons r before ih =>
    rw [List.cons_append, handles, ih, handles]
    rfl

theorem mem_of_mem_handles (hx : x ∈ s.handles routes) : x ∈ (s.internAll routes).records := by
  induction routes generalizing s with
  | nil => cases hx
  | cons r routes ih =>
    rcases List.mem_cons.1 hx with rfl | hx
    · exact mem_internAll_of_mem (s.intern_spec r).1 routes
    · exact ih hx

theorem intern_same (s : Store) (r : Route) : (s.intern r).2.route.Same r := by
  obtain ⟨-, l, hl, hx⟩ := s.intern_spec r
  rw [hx]
  exact ⟨rfl, rfl, rfl, rfl, AttrList.same_iff.2 hl⟩

theorem handles_same (s : Store) (routes : List Route) :
    ∀ c ∈ routes.zip (s.handles routes), c.2.route.Same c.1 := by
  induction routes generalizing s with
  | nil => exact List.forall_mem_nil _
  | cons r routes ih => exact List.forall_mem_cons.2 ⟨s.intern_same r, ih _⟩

/-- Routes were interned one after the other, with the records and the store that came of it. -/
structure Interns (routes : List Route) (s : Store) (xs : List Record) : Prop where
  length : xs.length = routes.length
  same : ∀ c ∈ routes.zip xs, c.2.route.Same c.1
  interchangeable : ∀ c ∈ routes.zip xs, c.2.route.attrs.Interchangeable c.1.attrs
  eq_iff : ∀ c ∈ routes.zip xs, ∀ d ∈ routes.zip xs, c.2 = d.2 ↔ c.1.Same d.1
  /-- A store has no more records than a machine word can count. -/
  index_eq_iff : s.size < UInt64.size →
    ∀ c ∈ routes.zip xs, ∀ d ∈ routes.zip xs, c.2.index = d.2.index ↔ c.1.Same d.1
  first : ∀ before r after, routes = before ++ r :: after → (∀ q ∈ before, ¬q.Same r) →
    xs[before.length]? = some ⟨.ofNat ((appearances before).length + 1), r⟩
  lasting : ∀ x ∈ xs, ∀ more, x ∈ (s.internAll more).records
  records : s.records.Perm (numbered (appearances routes))
  ordered : Ordered s.records

theorem interns_of_truthful (routes : List Route) (h : ∀ r ∈ routes, r.attrs.Truthful) :
    Interns routes (empty.internAll routes) (empty.handles routes) := by
  have henrols (before : List Route) : (empty.internAll before).Enrols (appearances before) :=
    enrols_empty.internAll before
  have hmem : ∀ c ∈ routes.zip (empty.handles routes), c.1 ∈ routes ∧
      c.2 ∈ (empty.internAll routes).records := fun c hc ↦
    (List.of_mem_zip hc).imp_right mem_of_mem_handles
  have hsame := empty.handles_same routes
  have heq : ∀ c ∈ routes.zip (empty.handles routes), ∀ d ∈ routes.zip (empty.handles routes),
      c.2 = d.2 ↔ c.1.Same d.1 := by
    intro c hc d hd
    constructor
    · intro h
      exact (hsame c hc).symm.trans (h ▸ hsame d hd)
    · intro h
      have hs := ((hsame c hc).trans h).trans (hsame d hd).symm
      exact (henrols routes).ordered.eq_of_same (hmem c hc).2 (hmem d hd).2 hs
  constructor
  case length => exact length_handles empty routes
  case same => exact hsame
  case interchangeable =>
    intro c hc
    -- The record holds some earlier route, whose mark is as true as this one's.
    rcases mem_of_mem_internAll (hmem c hc).2 with hx | ⟨q, hq, hx⟩
    · cases hx
    · exact (hx ▸ h q hq).interchangeable (h c.1 (hmem c hc).1)
        (AttrList.same_iff.1 (hsame c hc).attrs)
  case eq_iff => exact heq
  case index_eq_iff =>
    intro hfew c hc d hd
    rw [(henrols routes).size_eq] at hfew
    have hperm := (henrols routes).perm
    rw [← heq c hc d hd]
    refine ⟨eq_of_index_eq hfew (hperm.mem_iff.1 (hmem c hc).2) (hperm.mem_iff.1 (hmem d hd).2), ?_⟩
    exact congrArg Record.index
  case first =>
    rintro before r after rfl hnew
    have hroll : ¬∃ q ∈ appearances before, q.Same r := by
      rintro ⟨q, hq, hs⟩
      rcases mem_of_mem_foldl_enrol hq with hq | hq
      · cases hq
      · exact hnew q hq hs
    rw [handles_append, List.getElem?_append_right (length_handles empty before).le,
      length_handles, Nat.sub_self, handles, List.getElem?_cons_zero]
    rw [((henrols before).intern_new hroll).2]
  case lasting =>
    intro x hx more
    exact mem_internAll_of_mem (mem_of_mem_handles hx) more
  case records => exact (henrols routes).perm
  case ordered => exact (henrols routes).ordered

def threeRoutes : List Route :=
  [(.router, true), (.blackhole, true), (.router, false)].map (fun (dest, sorted) ↦
    ⟨.protocol .static, dest, none, none, ⟨[⟨.bgp 1, ⟨0x40⟩, .int 0⟩], sorted⟩⟩)

theorem interns_of_truthful_three :
    (empty.handles threeRoutes).map Record.index = [1, 2, 1] ∧
      (empty.handles threeRoutes).map (·.route.attrs.sorted) = [true, true, true] ∧
      Interns threeRoutes (empty.internAll threeRoutes) (empty.handles threeRoutes) := by
  have htruthful : ∀ r ∈ threeRoutes, r.attrs.Truthful := by
    simp only [AttrList.Truthful, AttrList.Ascending]
    decide
  exact ⟨by decide +kernel, by decide +kernel, interns_of_truthful threeRoutes htruthful⟩

end Store

end PathAttributes
