import PathAttributes.Proofs.BucketTable.Canonical

namespace PathAttributes

def Bucket.ofAttrs (l : AttrList) : Bucket := ⟨l, l.hash⟩

namespace BucketTable

open AttrList

def chainOf (chains : Array (List Nat)) (hash : UInt32) : List Nat :=
  chains[hash.toNat % chains.size]?.getD []

def hang (chains : Array (List Nat)) (hash : UInt32) (id : Nat) : Array (List Nat) :=
  chains.modify (hash.toNat % chains.size) (id :: ·)

theorem size_hang (chains : Array (List Nat)) (hash : UInt32) (id : Nat) :
    (hang chains hash id).size = chains.size := Array.size_modify

theorem mem_chainOf_hang {chains : Array (List Nat)} (hpos : 0 < chains.size) {hash other : UInt32}
    {id new : Nat} (h : id ∈ chainOf chains hash ∨ hash = other ∧ id = new) :
    id ∈ chainOf (hang chains other new) hash := by
  have hlt : hash.toNat % chains.size < chains.size := Nat.mod_lt _ hpos
  rw [chainOf, size_hang, hang, Array.getElem?_modify]
  rw [chainOf] at h
  rcases h with h | ⟨rfl, rfl⟩
  · split
    · rename_i hi
      rw [Array.getElem?_eq_getElem hlt] at h ⊢
      exact List.mem_cons_of_mem new h
    · exact h
  · rw [if_pos rfl, Array.getElem?_eq_getElem hlt]
    exact List.mem_cons_self

theorem foldl_hang {chains : Array (List Nat)} (hpos : 0 < chains.size) (bs : List (Bucket × Nat)) :
    (bs.foldl (fun chains b ↦ hang chains b.1.hash b.2) chains).size = chains.size ∧
      ∀ hash id, (id ∈ chainOf chains hash ∨ ∃ b, (b, id) ∈ bs ∧ b.hash = hash) →
        id ∈ chainOf (bs.foldl (fun chains b ↦ hang chains b.1.hash b.2) chains) hash := by
  induction bs generalizing chains with
  | nil => simp
  | cons b bs ih =>
    have hpos' : 0 < (hang chains b.1.hash b.2).size := by rwa [size_hang]
    obtain ⟨hsize, hmem⟩ := ih hpos'
    refine ⟨hsize.trans (size_hang ..), fun hash id h ↦ hmem hash id ?_⟩
    rcases h with h | ⟨c, hc, rfl⟩
    · exact .inl (mem_chainOf_hang hpos (.inl h))
    · rcases List.mem_cons.1 hc with rfl | hc
      · exact .inl (mem_chainOf_hang hpos (.inr ⟨rfl, rfl⟩))
      · exact .inr ⟨c, hc, rfl⟩

theorem link_eq (size : Nat) (buckets : Array Bucket) :
    link size buckets = buckets.toList.zipIdx.foldl (fun chains b ↦ hang chains b.1.hash b.2)
      (Array.replicate size []) := by
  have hfold (bs : List (Bucket × Nat)) (chains : Array (List Nat)) :
      bs.foldl (fun chains b ↦ chains.modify (b.1.hash.toNat % chains.size) (b.2 :: ·)) chains =
        bs.foldl (fun cs b ↦ cs.modify (b.1.hash.toNat % chains.size) (b.2 :: ·)) chains := by
    induction bs generalizing chains with
    | nil => rfl
    | cons b bs ih =>
      rw [List.foldl_cons, List.foldl_cons, ih, Array.size_modify]
  rw [link, ← Array.foldl_toList, Array.toList_zipIdx]
  have h := hfold buckets.toList.zipIdx (Array.replicate size [])
  rw [Array.size_replicate] at h
  exact h.symm

def bucketMatches (t : BucketTable) (c : AttrList) (hash : UInt32) (id : Nat) : Bool :=
  t.buckets[id]?.any (fun b ↦ b.hash == hash && b.attrs.same c)

theorem bucketMatches_iff {t : BucketTable} {c : AttrList} {hash : UInt32} {id : Nat} :
    t.bucketMatches c hash id = true ↔
      ∃ b, t.buckets[id]? = some b ∧ b.hash = hash ∧ b.attrs.attrs = c.attrs := by
  simp [bucketMatches, Option.any_eq_true, same_iff]

theorem find?_eq (t : BucketTable) (c : AttrList) (hash : UInt32) :
    t.find? c hash = (chainOf t.chains hash).find? (t.bucketMatches c hash) := rfl

/-- The buckets of a table are those of different lists, in this order, and each is in the chain of
its hash. -/
structure Holds (t : BucketTable) (lists : List AttrList) : Prop where
  buckets : t.buckets.toList = lists.map Bucket.ofAttrs
  distinct : lists.Pairwise (fun l m ↦ l.attrs ≠ m.attrs)
  linked : ∀ id b, t.buckets[id]? = some b → id ∈ chainOf t.chains b.hash
  chains_pos : 0 < t.chains.size
  limit_pos : 0 < t.limit

theorem nextLimit_pos {size : Nat} (h : 0 < size) : 0 < nextLimit size := by
  rw [nextLimit]
  split
  · decide
  · exact Nat.mul_pos h (by decide)

theorem holds_ofSize (size : Nat) : (ofSize size).Holds [] := by
  have hpos (n : Nat) : 0 < n.nextPowerOfTwo := by
    obtain ⟨k, hk⟩ := Nat.isPowerOfTwo_nextPowerOfTwo n
    rw [hk]
    exact Nat.two_pow_pos k
  refine ⟨rfl, .nil, fun id b h ↦ ?_, ?_, nextLimit_pos (hpos _)⟩
  · simp [ofSize] at h
  · show 0 < (Array.replicate _ []).size
    rw [Array.size_replicate]
    exact hpos _

namespace Holds

variable {t : BucketTable} {lists : List AttrList} {c : AttrList} {id : Nat}

theorem getElem? (h : t.Holds lists) (id : Nat) :
    t.buckets[id]? = lists[id]?.map Bucket.ofAttrs := by
  rw [← Array.getElem?_toList, h.buckets, List.getElem?_map]

theorem length (h : t.Holds lists) : t.buckets.size = lists.length := by
  rw [← Array.length_toList, h.buckets, List.length_map]

theorem index_inj (h : t.Holds lists) {i j : Nat} {l m : AttrList} (hi : lists[i]? = some l)
    (hj : lists[j]? = some m) (he : l.attrs = m.attrs) : i = j := by
  obtain ⟨hil, rfl⟩ := List.getElem?_eq_some_iff.1 hi
  obtain ⟨hjl, rfl⟩ := List.getElem?_eq_some_iff.1 hj
  have hne := List.pairwise_iff_getElem.1 h.distinct
  rcases Nat.lt_trichotomy i j with hlt | rfl | hlt
  · exact absurd he (hne i j hil hjl hlt)
  · rfl
  · exact absurd he.symm (hne j i hjl hil hlt)

theorem matches_iff (h : t.Holds lists) :
    t.bucketMatches c c.hash id = true ↔ ∃ l, lists[id]? = some l ∧ l.attrs = c.attrs := by
  rw [bucketMatches_iff]
  constructor
  · rintro ⟨b, hb, -, he⟩
    rw [h.getElem?] at hb
    obtain ⟨l, hl, rfl⟩ := Option.map_eq_some_iff.1 hb
    exact ⟨l, hl, he⟩
  · rintro ⟨l, hl, he⟩
    refine ⟨.ofAttrs l, ?_, hash_eq_of_attrs he, he⟩
    rw [h.getElem?, hl, Option.map_some]

/-- A list is found by its hash exactly where it stands among all lists. -/
theorem find?_eq_some_iff (h : t.Holds lists) :
    t.find? c c.hash = some id ↔ ∃ l, lists[id]? = some l ∧ l.attrs = c.attrs := by
  rw [find?_eq]
  constructor
  · exact fun hf ↦ h.matches_iff.1 (List.find?_some hf)
  · rintro ⟨l, hl, he⟩
    have hmem : id ∈ chainOf t.chains c.hash := by
      have hb := h.linked id (.ofAttrs l) (by rw [h.getElem?, hl, Option.map_some])
      rwa [Bucket.ofAttrs, hash_eq_of_attrs he] at hb
    -- The chain is searched from its front, but no two of its buckets match.
    obtain ⟨j, hj⟩ := Option.isSome_iff_exists.1
      (List.find?_isSome.2 ⟨id, hmem, h.matches_iff.2 ⟨l, hl, he⟩⟩)
    obtain ⟨m, hm, hme⟩ := h.matches_iff.1 (List.find?_some hj)
    rw [hj, h.index_inj hm hl (hme.trans he.symm)]

theorem push (h : t.Holds lists) (hc : ∀ l ∈ lists, l.attrs ≠ c.attrs) :
    (t.push (.ofAttrs c)).Holds (lists ++ [c]) := by
  refine ⟨?_, ?_, fun id b hb ↦ ?_, ?_, h.limit_pos⟩
  · show (t.buckets.push (.ofAttrs c)).toList = _
    rw [Array.toList_push, h.buckets, List.map_append, List.map_singleton]
  · refine List.pairwise_append.2 ⟨h.distinct, List.pairwise_singleton _ c, fun l hl m hm ↦ ?_⟩
    rw [List.mem_singleton.1 hm]
    exact hc l hl
  · show id ∈ chainOf (hang t.chains (Bucket.ofAttrs c).hash t.buckets.size) b.hash
    have hb : (t.buckets.push (.ofAttrs c))[id]? = some b := hb
    rw [Array.getElem?_push] at hb
    split at hb
    · rename_i hid
      have hhash := congrArg Bucket.hash (Option.some.inj hb).symm
      exact mem_chainOf_hang h.chains_pos (.inr ⟨hhash, hid⟩)
    · exact mem_chainOf_hang h.chains_pos (.inl (h.linked id b hb))
  · show 0 < (hang t.chains (Bucket.ofAttrs c).hash t.buckets.size).size
    rw [size_hang]
    exact h.chains_pos

/-- All buckets are hung into the chains of a table that has grown. -/
theorem grow (h : t.Holds lists) : t.grow.Holds lists := by
  have hpos : 0 < (Array.replicate t.limit ([] : List Nat)).size := by
    rw [Array.size_replicate]
    exact h.limit_pos
  obtain ⟨hsize, hmem⟩ := foldl_hang hpos t.buckets.toList.zipIdx
  rw [← link_eq] at hsize hmem
  refine ⟨h.buckets, h.distinct, fun id b hb ↦ hmem b.hash id (.inr ⟨b, ?_, rfl⟩), ?_,
    nextLimit_pos h.limit_pos⟩
  · rw [List.mem_zipIdx_iff_getElem?, Array.getElem?_toList]
    exact hb
  · show 0 < (link t.limit t.buckets).size
    rw [hsize]
    exact hpos

end Holds

end BucketTable

end PathAttributes
