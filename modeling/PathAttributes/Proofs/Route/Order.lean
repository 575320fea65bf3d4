import PathAttributes.Proofs.Route.Roll

namespace PathAttributes

def AttrId.order (i j : AttrId) : Ordering :=
  (compare (Named.rank i.ns) (Named.rank j.ns)).then (compare i.code j.code)

/-- By kind, then numbers and addresses by size, and octets as words in a dictionary. -/
def Value.order (v w : Value) : Ordering :=
  (compare (Named.rank v.kind) (Named.rank w.kind)).then
    (match v, w with
    | .int m, .int n => compare m n
    | .routerId a, .routerId b | .address a, .address b => compare a b
    | .raw d, .raw e | .asPath d, .asPath e | .intSet d, .intSet e => List.compareLex compare d e
    | _, _ => .eq)

def Attr.order (a b : Attr) : Ordering :=
  (a.id.order b.id).then ((compare a.flags.bits b.flags.bits).then (a.value.order b.value))

def AttrList.order (l m : AttrList) : Ordering := List.compareLex Attr.order l.attrs m.attrs

def PeerInfo.order (p q : PeerInfo) : Ordering :=
  (compare p.remoteAddr q.remoteAddr).then
    ((compare (Named.rank p.peerType) (Named.rank q.peerType)).then
      ((compare p.localAs q.localAs).then (compare p.identifier q.identifier)))

/-- Routes from peers come first. -/
def RouteOrigin.order : RouteOrigin → RouteOrigin → Ordering
  | neighbor p, neighbor q => p.order q
  | neighbor _, protocol _ => .lt
  | protocol _, neighbor _ => .gt
  | protocol s, protocol t => compare (Named.rank s) (Named.rank t)

def Route.order (r q : Route) : Ordering :=
  (r.origin.order q.origin).then
    ((compare (Named.rank r.dest) (Named.rank q.dest)).then
      ((compare r.gateway q.gateway).then
        ((compare r.ifindex q.ifindex).then (r.attrs.order q.attrs))))

theorem then_congr {o p q : Ordering} (h : o = .eq → p = q) : o.then p = o.then q := by
  cases o with
  | eq => exact h rfl
  | lt => rfl
  | gt => rfl

theorem compareLex_map {α β : Type} {f : α → β} {cmp : β → β → Ordering} (as bs : List α) :
    List.compareLex cmp (as.map f) (bs.map f) =
      List.compareLex (fun a b ↦ cmp (f a) (f b)) as bs := by
  induction as generalizing bs with
  | nil => cases bs <;> rfl
  | cons a as ih =>
    cases bs with
    | nil => rfl
    | cons b bs =>
      rw [List.map_cons, List.map_cons, List.compareLex_cons_cons, List.compareLex_cons_cons, ih]

theorem AttrId.compare_number (i j : AttrId) : compare i.number j.number = i.order j := by
  rw [order, UInt8.compare_eq_toNat_compare_toNat, compare_mul_add i.code.toNat_lt j.code.toNat_lt,
    number, number, Namespace.toNat_code, Namespace.toNat_code, Nat.mul_comm, Nat.mul_comm 256]

theorem Value.compare_content {v w : Value} :
    (compare (Named.rank v.kind) (Named.rank w.kind)).then
      (List.compareLex compare v.content w.content) = v.order w := by
  have hone {m n : Nat} : List.compareLex compare [m] [n] = compare m n := by
    rw [List.compareLex_cons_cons]
    exact Ordering.then_eq
  have hoctets {d e : Blob} : List.compareLex compare (d.map UInt8.toNat) (e.map UInt8.toNat) =
      List.compareLex compare d e := by
    simp only [compareLex_map, ← UInt8.compare_eq_toNat_compare_toNat]
  refine then_congr (fun hc ↦ ?_)
  have hk : v.kind = w.kind := Named.rank_injective (Nat.compare_eq_eq.1 hc)
  cases v <;> cases w <;> simp only [kind, reduceCtorEq] at hk
  case int m n => exact hone.trans (UInt32.compare_eq_toNat_compare_toNat m n).symm
  case routerId x y => exact hone.trans (Ipv4.compare_eq x y).symm
  case address x y => exact hone.trans (Ipv4.compare_eq x y).symm
  case raw d e => exact hoctets
  case asPath d e => exact hoctets
  case intSet d e => exact hoctets

theorem Attr.compare_eq_order (a b : Attr) : compare a b = a.order b := by
  show List.compareLex compare a.key b.key = a.order b
  rw [key, key, List.compareLex_cons_cons, List.compareLex_cons_cons, List.compareLex_cons_cons,
    AttrId.compare_number, Value.compare_content, ← UInt8.compare_eq_toNat_compare_toNat, order]

theorem AttrList.compare_eq_order (l m : AttrList) : compare l m = l.order m := by
  have horder : (compare : Attr → Attr → Ordering) = Attr.order :=
    funext fun a ↦ funext (Attr.compare_eq_order a)
  show List.compareLex compare l.attrs m.attrs = l.order m
  rw [horder, order]

namespace RouteOrigin

theorem compareLex_key_append (o o' : RouteOrigin) (as bs : List Nat) :
    List.compareLex compare (o.key ++ as) (o'.key ++ bs) =
      (o.order o').then (List.compareLex compare as bs) := by
  cases o with
  | neighbor p =>
    cases o' with
    | neighbor q =>
      simp only [key, PeerInfo.key, List.cons_append, List.nil_append, List.compareLex_cons_cons,
        order, PeerInfo.order, Ipv4.compare_eq, UInt16.compare_eq_toNat_compare_toNat,
        Ordering.then_assoc]
      rfl
    | protocol source => rfl
  | protocol source =>
    cases o' with
    | neighbor q => rfl
    | protocol source' =>
      simp only [key, List.cons_append, List.nil_append, List.compareLex_cons_cons, order]
      rfl

end RouteOrigin

namespace Route

theorem compareLex_optionKey_append (m n : Option Nat) (as bs : List Nat) :
    List.compareLex compare (optionKey m ++ as) (optionKey n ++ bs) =
      (compare m n).then (List.compareLex compare as bs) := by
  cases m with
  | none => cases n <;> rfl
  | some m =>
    cases n with
    | none => rfl
    | some n =>
      simp only [optionKey, List.cons_append, List.nil_append, List.compareLex_cons_cons]
      rfl

theorem compare_map {α : Type} [Ord α] {f : α → Nat} (h : ∀ a b, compare a b = compare (f a) (f b))
    (m n : Option α) : compare (m.map f) (n.map f) = compare m n := by
  cases m with
  | none => cases n <;> rfl
  | some a =>
    cases n with
    | none => rfl
    | some b => exact (h a b).symm

theorem compare_eq_order (r q : Route) : compare r q = r.order q := by
  show (List.compareLex compare r.key q.key).then (compare r.attrs q.attrs) = r.order q
  rw [key, key, RouteOrigin.compareLex_key_append, List.compareLex_cons_cons,
    compareLex_optionKey_append, ← List.append_nil (optionKey (r.ifindex.map _)),
    ← List.append_nil (optionKey (q.ifindex.map _)), compareLex_optionKey_append,
    compare_map Ipv4.compare_eq, compare_map UInt32.compare_eq_toNat_compare_toNat,
    AttrList.compare_eq_order, order]
  simp only [Ordering.then_assoc]
  rfl

end Route

structure IsOrder (α : Type) [Ord α] (same : α → α → Prop) : Prop where
  eq_iff : ∀ a b : α, compare a b = .eq ↔ same a b
  swap : ∀ a b : α, compare b a = (compare a b).swap
  trans : ∀ a b c : α, compare a b = .lt → compare b c = .lt → compare a c = .lt

theorem isOrder_of_transOrd {α : Type} [Ord α] [Std.TransOrd α] {same : α → α → Prop}
    (h : ∀ a b : α, compare a b = .eq ↔ same a b) : IsOrder α same :=
  ⟨h, fun _ _ ↦ Std.OrientedOrd.eq_swap, fun _ _ _ ↦ Std.TransCmp.lt_trans⟩

namespace Route

theorem exists_same_enrol (roll : List Route) (p r : Route) :
    (∃ q ∈ enrol roll p, q.Same r) ↔ (∃ q ∈ roll, q.Same r) ∨ p.Same r := by
  rw [enrol]
  split
  · rename_i hold
    refine ⟨.inl, fun h ↦ h.elim id (fun hp ↦ ?_)⟩
    obtain ⟨q, hq, hs⟩ := hold
    exact ⟨q, hq, hs.trans hp⟩
  · simp only [List.mem_append, List.mem_singleton, or_and_right, exists_or, exists_eq_left]

theorem exists_same_foldl_enrol (roll routes : List Route) (r : Route) :
    (∃ q ∈ routes.foldl enrol roll, q.Same r) ↔
      (∃ q ∈ roll, q.Same r) ∨ ∃ q ∈ routes, q.Same r := by
  induction routes generalizing roll with
  | nil => simp
  | cons p routes ih =>
    rw [List.foldl_cons, ih, exists_same_enrol, List.exists_mem_cons_iff, or_assoc]

end Route

namespace Store

open Route

variable {xs : List Record}

/-- Whatever is looked for, what comes before it and what comes after it stand on either side. -/
theorem Ordered.exists_split (h : Ordered xs) (r : Route) :
    ∃ below above, xs = below ++ (xs.find? (fun x ↦ compare x.route r == .eq)).toList ++ above ∧
      (∀ x ∈ below, compare x.route r = .lt) ∧ ∀ x ∈ above, compare x.route r = .gt := by
  induction xs with
  | nil => exact ⟨[], [], rfl, by simp, by simp⟩
  | cons x xs ih =>
    obtain ⟨hx, hxs⟩ := List.pairwise_cons.1 h
    cases hc : compare x.route r with
    | lt =>
      obtain ⟨below, above, he, hbelow, habove⟩ := ih hxs
      refine ⟨x :: below, above, ?_, List.forall_mem_cons.2 ⟨hc, hbelow⟩, habove⟩
      rw [List.find?_cons_of_neg (by simp [hc]), List.cons_append, List.cons_append, ← he]
    | eq =>
      refine ⟨[], xs, ?_, by simp, fun y hy ↦ ?_⟩
      · rw [List.find?_cons_of_pos (by simp [hc])]
        rfl
      · rw [Std.OrientedCmp.gt_iff_lt]
        exact Std.TransCmp.lt_of_eq_of_lt (Std.OrientedCmp.eq_symm hc) (hx y hy)
    | gt =>
      have hgt : ∀ y ∈ x :: xs, compare y.route r = .gt := by
        refine List.forall_mem_cons.2 ⟨hc, fun y hy ↦ ?_⟩
        rw [Std.OrientedCmp.gt_iff_lt] at hc ⊢
        exact Std.TransCmp.lt_trans hc (hx y hy)
      refine ⟨[], x :: xs, ?_, by simp, hgt⟩
      have hnone : (x :: xs).find? (fun x ↦ compare x.route r == .eq) = none :=
        List.find?_eq_none.2 (fun y hy ↦ by simp [hgt y hy])
      rw [hnone]
      rfl

/-- The routes that were interned are kept in their order, each but once, and where one is looked
for it is found. -/
structure Keeps (s : Store) (routes : List Route) : Prop where
  ordered : s.records.Pairwise (fun x y ↦ compare x.route y.route = .lt)
  distinct : ∀ x ∈ s.records, ∀ y ∈ s.records, x.route.Same y.route → x = y
  found : ∀ r, (s.find? r).isSome ↔ ∃ q ∈ routes, q.Same r
  place : ∀ r, ∃ below above, s.records = below ++ (s.find? r).toList ++ above ∧
    (∀ x ∈ below, compare x.route r = .lt) ∧ ∀ x ∈ above, compare x.route r = .gt

theorem keeps_internAll (routes : List Route) : (empty.internAll routes).Keeps routes := by
  have henrols : (empty.internAll routes).Enrols (appearances routes) :=
    enrols_empty.internAll routes
  refine ⟨henrols.ordered, fun x hx y hy ↦ henrols.ordered.eq_of_same hx hy, fun r ↦ ?_,
    henrols.ordered.exists_split⟩
  have hsome : ((empty.internAll routes).find? r).isSome ↔
      ∃ x ∈ (empty.internAll routes).records, x.route.Same r := by
    simp only [Store.find?, List.find?_isSome, beq_iff_eq, compare_eq_eq_iff_same]
  rw [hsome, ← henrols.exists_same_iff, appearances, exists_same_foldl_enrol]
  simp

end Store

def AttrList.marked (l : AttrList) (sorted : Bool) : AttrList := { l with sorted := sorted }

def Route.marked (r : Route) (sorted : Bool) : Route := { r with attrs := r.attrs.marked sorted }

/-- Lists and routes are ordered field by field, and the order tells apart what is not equal and
nothing else; marks play no part. So a store never holds two equal routes and loses none. -/
theorem isOrder_lists_and_routes :
    IsOrder AttrList (fun l m ↦ l.same m = true) ∧ IsOrder Route Route.Same ∧
      (∀ l m : AttrList, compare l m = l.order m) ∧ (∀ r q : Route, compare r q = r.order q) ∧
      (∀ (l m : AttrList) (b c : Bool), compare (l.marked b) (m.marked c) = compare l m ∧
        (l.marked b).same (m.marked c) = l.same m) ∧
      (∀ (r q : Route) (b c : Bool), compare (r.marked b) (q.marked c) = compare r q ∧
        ((r.marked b).Same (q.marked c) ↔ r.Same q)) ∧
      ∀ routes : List Route, (Store.empty.internAll routes).Keeps routes := by
  refine ⟨isOrder_of_transOrd ?_, isOrder_of_transOrd ?_, AttrList.compare_eq_order,
    Route.compare_eq_order, fun _ _ _ _ ↦ ⟨rfl, rfl⟩, fun r q b c ↦ ⟨rfl, ?_⟩,
    Store.keeps_internAll⟩
  · intro l m
    rw [AttrList.compare_eq_eq_iff, AttrList.same_iff]
  · exact fun _ _ ↦ Route.compare_eq_eq_iff_same
  · rw [← Route.compare_eq_eq_iff_same, ← Route.compare_eq_eq_iff_same]
    exact Iff.rfl

end PathAttributes
