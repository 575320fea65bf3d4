import PathAttributes.Proofs.AttrList.Ascending

namespace PathAttributes.AttrList

def first? (attrs : List Attr) (id : AttrId) : Option Attr := attrs.find? (fun a ↦ a.id = id)

variable {attrs : List Attr} {a : Attr} {id : AttrId}

theorem id_of_first? (h : first? attrs id = some a) : a.id = id := by
  simpa using List.find?_some h

theorem mem_of_first? (h : first? attrs id = some a) : a ∈ attrs := List.mem_of_find?_eq_some h

theorem first?_eq_none_iff : first? attrs id = none ↔ ∀ a ∈ attrs, a.id ≠ id := by
  simp [first?]

theorem first?_cons (a : Attr) (attrs : List Attr) (id : AttrId) :
    first? (a :: attrs) id = if a.id = id then some a else first? attrs id := by
  by_cases h : a.id = id <;> simp [first?, h]

theorem first?_append (as bs : List Attr) (id : AttrId) :
    first? (as ++ bs) id = (first? as id).or (first? bs id) := List.find?_append

theorem first?_map {f : Attr → Attr} (hf : ∀ a, (f a).id = a.id) (attrs : List Attr)
    (id : AttrId) : first? (attrs.map f) id = (first? attrs id).map f := by
  simp only [first?, List.find?_map, Function.comp_def, hf]

theorem first?_filter {p : AttrId → Bool} (h : p id = true) (attrs : List Attr) :
    first? (attrs.filter (fun a ↦ p a.id)) id = first? attrs id := by
  simp only [first?, List.find?_filter]
  congr 1
  funext a
  by_cases ha : a.id = id <;> simp [ha, h]

theorem Ascending.first?_eq_some (h : Ascending attrs) (ha : a ∈ attrs) :
    first? attrs a.id = some a := by
  induction attrs with
  | nil => cases ha
  | cons b attrs ih =>
    obtain ⟨hb, hattrs⟩ := List.pairwise_cons.1 h
    rw [first?_cons]
    rcases List.mem_cons.1 ha with rfl | ha
    · exact if_pos rfl
    · have hne : b.id ≠ a.id := fun he ↦ Nat.ne_of_lt (hb a ha) (congrArg AttrId.number he)
      rw [if_neg hne, ih hattrs ha]

theorem Ascending.ext {as bs : List Attr} (ha : Ascending as) (hb : Ascending bs)
    (h : ∀ id, first? as id = first? bs id) : as = bs := by
  have hsub {cs ds : List Attr} (hc : Ascending cs) (h : ∀ id, first? cs id = first? ds id) :
      ∀ a ∈ cs, a ∈ ds := by
    intro a hm
    have hf := hc.first?_eq_some hm
    rw [h] at hf
    exact mem_of_first? hf
  have hnodup {cs : List Attr} (hc : Ascending cs) : cs.Nodup :=
    hc.imp (fun hlt he ↦ Nat.ne_of_lt hlt (congrArg (fun c : Attr ↦ c.id.number) he))
  have hperm : as.Perm bs := (List.perm_ext_iff_of_nodup (hnodup ha) (hnodup hb)).2
    (fun a ↦ ⟨hsub ha h a, hsub hb (fun id ↦ (h id).symm) a⟩)
  exact ha.eq_of_perm hb hperm

/-- An attribute is added only where the list has none of its id. -/
theorem first?_insertNew {l : List Attr} (h : Ascending l) (a : Attr) (id : AttrId) :
    first? (insertNew a l) id = (first? l id).or (if a.id = id then some a else none) := by
  induction l with
  | nil => simp [insertNew, first?]
  | cons b l ih =>
    obtain ⟨hb, hl⟩ := List.pairwise_cons.1 h
    simp only [insertNew]
    split
    · rename_i hlt
      rw [first?_cons]
      split
      · rename_i hid
        have hn : first? (b :: l) id = none := by
          refine first?_eq_none_iff.2 (fun c hc he ↦ ?_)
          have hn : c.id.number = a.id.number := by rw [he, hid]
          rcases List.mem_cons.1 hc with rfl | hc
          · omega
          · have := hb c hc
            omega
        rw [hn, Option.none_or]
      · rw [Option.or_none]
    · split
      · rename_i hid
        by_cases hb : b.id = id
        · simp [first?_cons, hb]
        · simp [first?_cons, hb, hid]
      · rw [first?_cons, first?_cons, ih hl]
        split <;> simp

theorem first?_foldl {l : List Attr} (h : Ascending l) (attrs : List Attr) (id : AttrId) :
    first? (attrs.foldl (fun l a ↦ insertNew a l) l) id = (first? l id).or (first? attrs id) := by
  induction attrs generalizing l with
  | nil => simp [first?]
  | cons a attrs ih =>
    rw [List.foldl_cons, ih (ascending_insertNew a h), first?_insertNew h, Option.or_assoc,
      first?_cons]
    split <;> simp

/-- Sorting keeps the first attribute of each id. -/
theorem first?_firsts (attrs : List Attr) (id : AttrId) :
    first? (firsts attrs) id = first? attrs id := by
  rw [firsts, first?_foldl List.Pairwise.nil]
  rfl

theorem mem_of_mem_firsts (h : a ∈ firsts attrs) : a ∈ attrs := by
  have hf := (ascending_firsts attrs).first?_eq_some h
  rw [first?_firsts] at hf
  exact mem_of_first? hf

theorem number_le_iff (h : Ascending attrs) {p q : Nat} {a b : Attr} (ha : attrs[p]? = some a)
    (hb : attrs[q]? = some b) : a.id.number ≤ b.id.number ↔ p ≤ q := by
  have hlt {i j : Nat} {c d : Attr} (hc : attrs[i]? = some c) (hd : attrs[j]? = some d)
      (hij : i < j) : c.id.number < d.id.number := by
    obtain ⟨hi, rfl⟩ := List.getElem?_eq_some_iff.1 hc
    obtain ⟨hj, rfl⟩ := List.getElem?_eq_some_iff.1 hd
    exact List.pairwise_iff_getElem.1 h i j hi hj hij
  rcases Nat.lt_trichotomy p q with hpq | rfl | hqp
  · have := hlt ha hb hpq
    omega
  · rw [ha] at hb
    cases hb
    simp
  · have := hlt hb ha hqp
    omega

/-- The search by halves ends where an attribute of the number stands, if it stands between the
bounds of the search. -/
theorem bisect_eq (h : Ascending attrs) {p base size : Nat} (hp : attrs[p]? = some a)
    (hlo : base ≤ p) (hhi : p < base + size) (hsize : base + size ≤ attrs.length) :
    bisect attrs a.id.number base size = p := by
  fun_induction bisect attrs a.id.number base size with
  | case1 base size hs => omega
  | case2 base size hs mid isAbove ih =>
    have hmid : mid < attrs.length := by omega
    have hle := number_le_iff h (List.getElem?_eq_getElem hmid) hp
    have hn : isAbove = decide (a.id.number < attrs[mid].id.number) := by
      simp [isAbove, List.getElem?_eq_getElem hmid]
    apply ih <;> rw [hn] <;> simp only [decide_eq_true_eq] <;> split <;> omega

/-- A list that is marked as sorted is in order of ids. -/
def Truthful (l : AttrList) : Prop := l.sorted = true → Ascending l.attrs

theorem sort_of_sorted {l : AttrList} (h : l.sorted = true) : l.sort = l := if_pos h

theorem sorted_sort (l : AttrList) : l.sort.sorted = true := by
  rw [sort]
  split
  · assumption
  · rfl

theorem Truthful.ascending_sort {l : AttrList} (h : l.Truthful) : Ascending l.sort.attrs := by
  rw [sort]
  split
  · rename_i hs
    exact h hs
  · exact ascending_firsts l.attrs

theorem mem_of_mem_sort {l : AttrList} (h : a ∈ l.sort.attrs) : a ∈ l.attrs := by
  rw [sort] at h
  split at h
  · exact h
  · exact mem_of_mem_firsts h

/-- A list whose mark is true is searched by halves for what stands first in it. -/
theorem find?_eq_first? {l : AttrList} (h : l.Truthful) (id : AttrId) :
    l.find? id = first? l.attrs id := by
  rw [find?]
  split
  · rename_i hs
    cases hf : first? l.attrs id with
    | none =>
      refine Option.eq_none_iff_forall_not_mem.2 (fun a ha ↦ ?_)
      obtain ⟨ha, hid⟩ := Option.filter_eq_some_iff.1 ha
      exact first?_eq_none_iff.1 hf a (List.mem_of_getElem? ha) (by simpa using hid)
    | some a =>
      obtain ⟨p, hp⟩ := List.mem_iff_getElem?.1 (mem_of_first? hf)
      obtain ⟨hlt, -⟩ := List.getElem?_eq_some_iff.1 hp
      have hb := bisect_eq (h hs) hp (Nat.zero_le p) (by omega) (Nat.le_of_eq (Nat.zero_add _))
      rw [id_of_first? hf] at hb
      rw [hb, hp, Option.filter_some]
      simp [id_of_first? hf]
  · rfl

theorem mem_of_find? {l : AttrList} (h : l.find? id = some a) : a ∈ l.attrs ∧ a.id = id := by
  rw [find?] at h
  split at h
  · obtain ⟨ha, hid⟩ := Option.filter_eq_some_iff.1 h
    exact ⟨List.mem_of_getElem? ha, by simpa using hid⟩
  · exact ⟨mem_of_first? h, id_of_first? h⟩

theorem get?_of_sorts {l : AttrList} {type : AttrType} (hs : l.Sorts attrs) (ha : a ∈ attrs)
    (hid : a.id = type.id) : l.get? type = some a := by
  rw [get?, find?_eq_first? (fun _ ↦ hs.ascending), ← hid]
  exact hs.ascending.first?_eq_some (hs.perm.mem_iff.2 ha)

end PathAttributes.AttrList
