import PathAttributes.Proofs.AttrList.Canonical
import PathAttributes.Proofs.AttrList.Union

namespace PathAttributes.AttrList

variable {l m : AttrList}

structure Interchangeable (l m : AttrList) : Prop where
  find : ∀ id, l.find? id = m.find? id
  get : ∀ type, l.get? type = m.get? type
  encode : l.encode = m.encode
  hash : l.hash = m.hash
  text : l.text = m.text
  same : ∀ n : AttrList, l.same n = m.same n ∧ n.same l = n.same m
  compare : ∀ n : AttrList, compare l n = compare m n ∧ compare n l = compare n m
  sort : l.sort = m.sort
  normalize : l.normalize = m.normalize
  chain : ∀ high low : Chain, (∀ id, Chain.find? (high ++ l :: low) id =
    Chain.find? (high ++ m :: low) id) ∧
      Chain.merge (high ++ l :: low) = Chain.merge (high ++ m :: low)

theorem merge_congr_attrs (h : l.attrs = m.attrs) (high low : Chain) :
    Chain.merge (high ++ l :: low) = Chain.merge (high ++ m :: low) := by
  simp only [Chain.merge, List.flatMap_append, List.flatMap_cons, h]

/-- The mark of a list plays no part as long as it is true. -/
theorem Truthful.interchangeable (hl : l.Truthful) (hm : m.Truthful) (h : l.attrs = m.attrs) :
    l.Interchangeable m := by
  have hfind (id : AttrId) : l.find? id = m.find? id := by
    rw [find?_eq_first? hl, find?_eq_first? hm, h]
  have hsort : l.sort = m.sort := by
    rw [Chain.sort_eq_merge hl, Chain.sort_eq_merge hm]
    exact merge_congr_attrs h [] []
  refine ⟨hfind, fun type ↦ hfind type.id, ?_, hash_eq_of_attrs h, ?_, ?_, ?_, hsort, ?_, ?_⟩
  · rw [encode, encode, retain, retain, h]
  · rw [text, text, h]
  · intro n
    rw [same, same, same, same, h]
    exact ⟨rfl, rfl⟩
  · intro n
    show Ord.compare l.attrs n.attrs = Ord.compare m.attrs n.attrs ∧
      Ord.compare n.attrs l.attrs = Ord.compare n.attrs m.attrs
    rw [h]
    exact ⟨rfl, rfl⟩
  · rw [normalize, normalize, hsort]
  · intro high low
    refine ⟨fun id ↦ ?_, merge_congr_attrs h high low⟩
    simp only [Chain.find?, List.findSome?_append, List.findSome?_cons, hfind]

end PathAttributes.AttrList
