import PathAttributes.Proofs.BucketTable.Catalogue

namespace PathAttributes

open AttrList

namespace Catalogue

variable {lists : Catalogue} {calls : List BucketCall} {high low : AttrList} {id : Nat}

theorem exists_of_answer
    (h : (lists.answer (.getOrCreate high low)).2 = .given (.ok id)) :
    ∃ l, (lists.answer (.getOrCreate high low)).1[id]? = some l ∧
      l.attrs = (BucketTable.canonical high low).attrs := by
  simp only [answer] at h ⊢
  cases hp : position? lists (BucketTable.canonical high low) with
  | some i =>
    simp only [hp, BucketAnswer.given.injEq, Except.ok.injEq] at h ⊢
    subst h
    obtain ⟨hlt, hs, -⟩ := List.findIdx?_eq_some_iff_getElem.1 hp
    exact ⟨_, List.getElem?_eq_getElem hlt, same_iff.1 hs⟩
  | none =>
    cases hm : firstMissing? (BucketTable.canonical high low) with
    | some type =>
      simp only [hp, hm] at h
      cases h
    | none =>
      simp only [hp, hm, BucketAnswer.given.injEq, Except.ok.injEq] at h ⊢
      subst h
      exact ⟨_, List.getElem?_concat_length, rfl⟩

theorem mem_answer {l : AttrList} (h : l ∈ (lists.answer (.getOrCreate high low)).1) :
    l ∈ lists ∨ l = BucketTable.canonical high low := by
  rw [answer] at h
  split at h
  · exact .inl h
  · split at h
    · exact .inl h
    · simpa using h

theorem mem_answers {l : AttrList} (h : l ∈ (answers answer lists calls).1) :
    l ∈ lists ∨ ∃ high low, l = BucketTable.canonical high low := by
  induction calls generalizing lists with
  | nil => exact .inl h
  | cons call calls ih =>
    rcases ih h with h | h
    · cases call with
      | getOrCreate high low => exact (mem_answer h).imp_right (fun he ↦ ⟨high, low, he⟩)
      | lookup high low => exact .inl h
      | get id => exact .inl h
    · exact .inr h

/-- By induction on the calls: a list stays where it was put. -/
theorem exists_of_answers
    (h : (.getOrCreate high low, .given (.ok id)) ∈ calls.zip (answers answer lists calls).2) :
    ∃ l, (answers answer lists calls).1[id]? = some l ∧
      l.attrs = (BucketTable.canonical high low).attrs := by
  induction calls generalizing lists with
  | nil => simp at h
  | cons call calls ih =>
    rcases List.mem_cons.1 h with hhead | htail
    · obtain ⟨rfl, hanswer⟩ := Prod.mk.inj hhead
      obtain ⟨l, hl, he⟩ := exists_of_answer hanswer.symm
      have hlt := (List.getElem?_eq_some_iff.1 hl).1
      obtain ⟨more, hmore⟩ := isPrefix_answers (lists.answer (.getOrCreate high low)).1 calls
      refine ⟨l, ?_, he⟩
      rw [answers, ← hmore, List.getElem?_append_left hlt, hl]
    · exact ih htail

end Catalogue

namespace BucketTable

variable {size i j : Nat} {calls : List BucketCall} {high₁ low₁ high₂ low₂ : AttrList}

theorem ascending_of_get? {b : Bucket}
    (h : (answers answer (ofSize size) calls).1.get? i = some b) : Ascending b.attrs.attrs := by
  obtain ⟨hold, -⟩ := (holds_ofSize size).answers calls
  rw [get?, hold.getElem?] at h
  obtain ⟨l, hl, rfl⟩ := Option.map_eq_some_iff.1 h
  rcases Catalogue.mem_answers (List.mem_of_getElem? hl) with hl | ⟨high, low, rfl⟩
  · cases hl
  · exact ascending_canonical high low

/-- Two requests get one bucket exactly if the attributes that are not hidden are the same in both,
up to how the members of sets are written. Sets always have room that can be sent at all. -/
theorem given_eq_iff
    (h₁ : (.getOrCreate high₁ low₁, .given (.ok i)) ∈
      calls.zip (answers answer (ofSize size) calls).2)
    (h₂ : (.getOrCreate high₂ low₂, .given (.ok j)) ∈
      calls.zip (answers answer (ofSize size) calls).2) :
    (i = j ↔ ∀ code, Option.Rel Attr.Alike (effective high₁ low₁ (.bgp code))
      (effective high₂ low₂ (.bgp code))) ∧
    ∀ s : Octets, 4 ∣ s.length → s.length ≤ Blob.limit → IntSet.HasRoom s := by
  refine ⟨?_, fun _ ↦ IntSet.hasRoom_of_length_le⟩
  obtain ⟨hold, hreplies⟩ := (holds_ofSize size).answers calls
  rw [hreplies] at h₁ h₂
  obtain ⟨l, hl, hle⟩ := Catalogue.exists_of_answers h₁
  obtain ⟨m, hm, hme⟩ := Catalogue.exists_of_answers h₂
  rw [← canonical_eq_iff]
  constructor
  · intro hij
    subst hij
    have hlm : l = m := Option.some.inj (hl.symm.trans hm)
    have he : (canonical high₁ low₁).attrs = (canonical high₂ low₂).attrs := by
      rw [← hle, hlm, hme]
    exact congrArg (AttrList.mk · true) he
  · intro hc
    exact hold.index_inj hl hm (by rw [hle, hme, hc])

def plain : AttrList := .ofList
  [⟨.bgp 1, ⟨0x40⟩, .int 0⟩, ⟨.bgp 2, ⟨0x40⟩, .asPath []⟩, ⟨.bgp 3, ⟨0x40⟩, .address ⟨10⟩⟩]

def splitHigh : AttrList := .ofList [⟨.bgp 3, ⟨0x40⟩, .address ⟨10⟩⟩, ⟨⟨.ospf, 9⟩, ⟨0⟩, .int 1⟩]

def splitLow : AttrList := .ofList
  [⟨.bgp 3, ⟨0x40⟩, .address ⟨20⟩⟩, ⟨.bgp 2, ⟨0x40⟩, .asPath []⟩, ⟨.bgp 1, ⟨0x40⟩, .int 0⟩,
    ⟨.bgp 1, ⟨0x80⟩, .int 2⟩]

def splitCalls : List BucketCall := [.getOrCreate .empty plain, .getOrCreate splitHigh splitLow]

theorem given_eq_of_split :
    (.getOrCreate .empty plain, .given (.ok 0)) ∈
        splitCalls.zip (answers answer (ofSize 1) splitCalls).2 ∧
      (.getOrCreate splitHigh splitLow, .given (.ok 0)) ∈
        splitCalls.zip (answers answer (ofSize 1) splitCalls).2 ∧
      ∀ code, Option.Rel Attr.Alike (effective .empty plain (.bgp code))
        (effective splitHigh splitLow (.bgp code)) := by
  have hreplies := ((holds_ofSize 1).answers splitCalls).2
  have h₁ : (.getOrCreate .empty plain, .given (.ok 0)) ∈
      splitCalls.zip (answers answer (ofSize 1) splitCalls).2 := by
    rw [hreplies]
    decide +kernel
  have h₂ : (.getOrCreate splitHigh splitLow, .given (.ok 0)) ∈
      splitCalls.zip (answers answer (ofSize 1) splitCalls).2 := by
    rw [hreplies]
    decide +kernel
  exact ⟨h₁, h₂, (given_eq_iff h₁ h₂).1.1 rfl⟩

end BucketTable

end PathAttributes
