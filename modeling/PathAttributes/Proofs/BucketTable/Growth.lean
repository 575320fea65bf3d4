import Mathlib.Algebra.Group.Nat.Defs
import Mathlib.Order.Bounds.Defs
import PathAttributes.Proofs.BucketTable.Identity

namespace PathAttributes

section PowerOfTwo

open private Nat.nextPowerOfTwo.go in Nat.nextPowerOfTwo

/-- By induction on the doublings: no power of two is passed over. -/
theorem nextPowerOfTwo_go_spec (n power : Nat) (h : 0 < power)
    (hleast : ∀ p : Nat, p.isPowerOfTwo → n ≤ p → power ≤ p) (hpower : power.isPowerOfTwo) :
    n ≤ Nat.nextPowerOfTwo.go n power h ∧
      ∀ p : Nat, p.isPowerOfTwo → n ≤ p → Nat.nextPowerOfTwo.go n power h ≤ p := by
  fun_induction Nat.nextPowerOfTwo.go n power h with
  | case1 power h hlt ih =>
    obtain ⟨k, rfl⟩ := hpower
    refine ih ?_ ⟨k + 1, rfl⟩
    rintro p ⟨j, rfl⟩ hp
    rw [← Nat.pow_succ]
    apply Nat.pow_le_pow_right Nat.two_pos
    exact (Nat.pow_lt_pow_iff_right Nat.one_lt_two).1 (Nat.lt_of_lt_of_le hlt hp)
  | case2 power h hlt => exact ⟨Nat.le_of_not_lt hlt, hleast⟩

theorem isLeast_nextPowerOfTwo (n : Nat) :
    IsLeast {p : Nat | p.isPowerOfTwo ∧ n ≤ p} n.nextPowerOfTwo := by
  have hone : ∀ p : Nat, p.isPowerOfTwo → n ≤ p → 1 ≤ p := fun p hp _ ↦ Nat.pos_of_isPowerOfTwo hp
  obtain ⟨hle, hleast⟩ := nextPowerOfTwo_go_spec n 1 Nat.one_pos hone Nat.isPowerOfTwo_one
  exact ⟨⟨Nat.isPowerOfTwo_nextPowerOfTwo n, hle⟩, fun p hp ↦ hleast p hp.1 hp.2⟩

end PowerOfTwo

def BucketEvent.isGrowth : BucketEvent → Bool
  | grown _ _ => true
  | found _ _ | created _ _ => false

namespace BucketTable

def events (t : BucketTable) : BucketCall → List BucketEvent
  | .getOrCreate high low => (t.getOrCreate high low).events
  | .lookup _ _ | .get _ => []

def growths : BucketTable → List BucketCall → Nat
  | _, [] => 0
  | t, call :: calls =>
    (t.events call).countP BucketEvent.isGrowth + growths (t.answer call).1 calls

inductive Steps (t : BucketTable) : BucketTable → List BucketEvent → Prop
  | leaves {es : List BucketEvent} (h : ∀ e ∈ es, e.isGrowth = false) : Steps t t es
  | adds (b : Bucket) (h : t.length < t.limit) :
      Steps t (t.push b) [.created t.length b.hash]
  | grows (b : Bucket) (h : t.limit ≤ t.length) :
      Steps t (t.push b).grow [.created t.length b.hash, .grown t.size t.limit]

variable {t t' : BucketTable} {calls : List BucketCall} {es : List BucketEvent} {start n : Nat}

theorem steps_getOrCreate (t : BucketTable) (high low : AttrList) :
    t.Steps (t.getOrCreate high low).table (t.getOrCreate high low).events := by
  simp only [getOrCreate]
  split
  · exact .leaves (by simp [BucketEvent.isGrowth])
  · split
    · exact .leaves (by simp)
    · split
      · rename_i h
        exact .grows _ (Nat.le_of_lt_succ h)
      · rename_i h
        exact .adds _ (Nat.lt_of_succ_le (Nat.le_of_not_lt h))

theorem steps_answer (t : BucketTable) (call : BucketCall) :
    t.Steps (t.answer call).1 (t.events call) := by
  cases call with
  | getOrCreate high low => exact steps_getOrCreate t high low
  | lookup high low => exact .leaves nofun
  | get id => exact .leaves nofun

@[simp] theorem length_push (t : BucketTable) (b : Bucket) : (t.push b).length = t.length + 1 :=
  Array.size_push _

@[simp] theorem size_push (t : BucketTable) (b : Bucket) : (t.push b).size = t.size :=
  Array.size_modify

@[simp] theorem limit_push (t : BucketTable) (b : Bucket) : (t.push b).limit = t.limit := rfl

@[simp] theorem length_grow (t : BucketTable) : t.grow.length = t.length := rfl

@[simp] theorem limit_grow (t : BucketTable) : t.grow.limit = nextLimit t.limit := rfl

theorem size_grow (h : 0 < t.limit) : t.grow.size = t.limit := by
  have hpos : 0 < (Array.replicate t.limit ([] : List Nat)).size := by
    rwa [Array.size_replicate]
  rw [grow, size, link_eq, (foldl_hang hpos _).1, Array.size_replicate]

theorem Steps.length_le (h : t.Steps t' es) : t.length ≤ t'.length := by
  cases h with
  | leaves => exact Nat.le_refl _
  | adds b | grows b => simp

theorem Steps.grows_iff (h : t.Steps t' es) (hle : t.length ≤ t.limit) :
    es.any BucketEvent.isGrowth = true ↔
      t'.length = t.length + 1 ∧ t'.length = t.limit + 1 := by
  cases h with
  | leaves hes => simpa using hes
  | adds b hlt =>
    rw [length_push]
    exact ⟨nofun, fun ⟨_, hfull⟩ ↦ by omega⟩
  | grows b hge =>
    rw [length_grow, length_push]
    exact ⟨fun _ ↦ ⟨rfl, by omega⟩, fun _ ↦ rfl⟩

theorem Steps.of_grows (h : t.Steps t' es) (hpos : 0 < t.limit)
    (hes : es.any BucketEvent.isGrowth = true) :
    .grown t.size t.limit ∈ es ∧ t'.size = t.limit := by
  cases h with
  | leaves hno =>
    obtain ⟨e, he, hg⟩ := List.any_eq_true.1 hes
    rw [hno e he] at hg
    cases hg
  | adds b hlt => cases hes
  | grows b hge => exact ⟨by simp, size_grow hpos⟩

theorem Steps.of_not_grows (h : t.Steps t' es) (hes : ¬es.any BucketEvent.isGrowth = true) :
    t'.size = t.size ∧ t'.limit = t.limit := by
  cases h with
  | leaves => exact ⟨rfl, rfl⟩
  | adds b hlt => exact ⟨size_push t b, limit_push t b⟩
  | grows b hge => exact absurd rfl hes

theorem length_le_answers (t : BucketTable) (calls : List BucketCall) :
    t.length ≤ (answers answer t calls).1.length := by
  induction calls generalizing t with
  | nil => exact Nat.le_refl _
  | cons call calls ih => exact (t.steps_answer call).length_le.trans (ih _)

/-- A table that began with `start` chains and has grown `n` times. -/
structure Stage (start n : Nat) (t : BucketTable) : Prop where
  start_pos : 0 < start
  size : t.size = start * 4 ^ n
  limit : t.limit = nextLimit t.size
  length_le : t.length ≤ t.limit
  grown : n ≠ 0 → t.size < t.length ∧ t.size < sizeLimit

namespace Stage

theorem size_pos (h : Stage start n t) : 0 < t.size := by
  rw [h.size]
  exact Nat.mul_pos h.start_pos (Nat.pow_pos (by decide))

theorem step (h : Stage start n t) (hd : t.Steps t' es) (hfew : t'.length < UInt32.size) :
    Stage start (n + es.countP BucketEvent.isGrowth) t' := by
  have hpos := h.size_pos
  cases hd with
  | leaves hes =>
    have hcount : es.countP BucketEvent.isGrowth = 0 := by
      rw [List.countP_eq_zero]
      simpa using hes
    rwa [hcount]
  | adds b hlt =>
    have hgrown := h.grown
    refine ⟨h.start_pos, ?_, ?_, ?_, ?_⟩
    · rw [size_push, h.size]
      rfl
    · rw [limit_push, size_push, h.limit]
    · rw [limit_push, length_push]
      omega
    · rw [size_push, length_push]
      intro hn
      have := hgrown hn
      omega
  | grows b hle =>
    rw [length_grow, length_push] at hfew
    -- Had the limit been the greatest number, one bucket more would be too many for a length.
    have hlimit : t.limit = t.size * 4 ∧ t.size * 4 < sizeLimit := by
      have hl := h.limit
      rw [nextLimit, loadFactor] at hl
      split at hl
      · omega
      · omega
    have hlength := h.length_le
    have hsize : (t.push b).grow.size = t.size * 4 := by
      rw [size_grow (by rw [limit_push]; omega), limit_push, hlimit.1]
    refine ⟨h.start_pos, ?_, ?_, ?_, ?_⟩
    · rw [hsize, h.size, Nat.mul_assoc]
      rfl
    · rw [limit_grow, hsize, limit_push, hlimit.1]
    · rw [limit_grow, length_grow, length_push, limit_push, hlimit.1, nextLimit, loadFactor]
      split <;> omega
    · rw [hsize, length_grow, length_push]
      omega

theorem answers (h : Stage start n t)
    (hfew : (PathAttributes.answers answer t calls).1.length < UInt32.size) :
    Stage start (n + growths t calls) (PathAttributes.answers answer t calls).1 := by
  induction calls generalizing t n with
  | nil => exact h
  | cons call calls ih =>
    have hstep := (t.answer call).1.length_le_answers calls
    have hnext := h.step (t.steps_answer call) (Nat.lt_of_le_of_lt hstep hfew)
    rw [growths, ← Nat.add_assoc]
    exact ih hnext hfew

theorem lt_eight (h : Stage start n t) : n < 8 := by
  by_cases hn : n = 0
  · omega
  · have hlt := (h.grown hn).2
    have hle := Nat.le_mul_of_pos_left (4 ^ n) h.start_pos
    rw [h.size] at hlt
    exact (Nat.pow_lt_pow_iff_right (by decide)).1 (Nat.lt_of_le_of_lt hle hlt)

theorem le_of_length_eq {m : Nat} (h : Stage start n t) (h' : Stage start m t')
    (hl : t.length = t'.length) : n ≤ m := by
  by_contra hlt
  obtain ⟨hlength, hsize⟩ := h.grown (by omega)
  -- The table that has grown more often has more buckets than the other's limit allows.
  have hpow : start * 4 ^ (m + 1) ≤ start * 4 ^ n :=
    Nat.mul_le_mul_left start (Nat.pow_le_pow_right (by decide) (by omega))
  rw [Nat.pow_succ, ← Nat.mul_assoc, ← h'.size, ← h.size] at hpow
  have hlimit := h'.limit
  have hle := h'.length_le
  rw [nextLimit, loadFactor, if_neg (by omega)] at hlimit
  omega

theorem size_eq_of_length_eq {m : Nat} (h : Stage start n t) (h' : Stage start m t')
    (hl : t.length = t'.length) : t.size = t'.size := by
  have hn : n = m := Nat.le_antisymm (h.le_of_length_eq h' hl) (h'.le_of_length_eq h hl.symm)
  rw [h.size, h'.size, hn]

end Stage

def Grows (t : BucketTable) (call : BucketCall) : Prop :=
  (t.events call).any BucketEvent.isGrowth = true

/-- The number of chains is one by which a hash can be cut with a mask. The table grows exactly when
a bucket is created that is one too many, and the limit becomes the number of chains. -/
structure Sized (t : BucketTable) : Prop where
  power : t.size.isPowerOfTwo
  pos : 1 ≤ t.size
  le : t.size ≤ 65536
  limit : t.limit = if 4 * t.size < 65536 then 4 * t.size else 2 ^ 32 - 1
  length_le : t.length ≤ t.limit
  grows_iff : ∀ call, t.Grows call ↔
    (t.answer call).1.length = t.length + 1 ∧ (t.answer call).1.length = t.limit + 1
  of_grows : ∀ call, t.Grows call →
    .grown t.size t.limit ∈ t.events call ∧ (t.answer call).1.size = t.limit
  of_not_grows : ∀ call, ¬t.Grows call →
    (t.answer call).1.size = t.size ∧ (t.answer call).1.limit = t.limit
  place : ∀ hash : UInt32, (hash &&& (.ofNat t.size - 1)).toNat = hash.toNat % t.size ∧
    hash.toNat % t.size < t.chains.size

theorem toNat_and_pred {size : Nat} (hp : size.isPowerOfTwo) (hle : size ≤ 65536) (hash : UInt32) :
    (hash &&& (.ofNat size - 1)).toNat = hash.toNat % size := by
  obtain ⟨k, rfl⟩ := hp
  have hpos := Nat.two_pow_pos k
  have hmask : (UInt32.ofNat (2 ^ k) - 1).toNat = 2 ^ k - 1 := by
    have htoNat : (UInt32.ofNat (2 ^ k)).toNat = 2 ^ k :=
      UInt32.toNat_ofNat_of_lt' (Nat.lt_of_le_of_lt hle (by decide))
    rw [UInt32.toNat_sub_of_le _ _ (by rw [UInt32.le_iff_toNat_le, htoNat]; exact hpos), htoNat]
    rfl
  rw [UInt32.toNat_and, hmask, Nat.and_two_pow_sub_one_eq_mod]

namespace Stage

theorem power (h : Stage start n t) (hs : start.isPowerOfTwo) : t.size.isPowerOfTwo := by
  obtain ⟨k, hk⟩ := hs
  refine ⟨k + 2 * n, ?_⟩
  rw [h.size, hk, Nat.pow_add, Nat.pow_mul]

theorem size_le (h : Stage start n t) (hs : start ≤ sizeLimit) : t.size ≤ sizeLimit := by
  by_cases hn : n = 0
  · rw [h.size, hn]
    omega
  · exact Nat.le_of_lt (h.grown hn).2

theorem sized (h : Stage start n t) (hs : start.isPowerOfTwo) (hle : start ≤ sizeLimit) :
    t.Sized := by
  have hsize := h.size_le hle
  have hlimit : 0 < t.limit := by
    rw [h.limit]
    exact nextLimit_pos h.size_pos
  refine ⟨h.power hs, h.size_pos, hsize, ?_, h.length_le, ?_, ?_, ?_, ?_⟩
  · rw [h.limit, nextLimit, loadFactor, sizeLimit]
    split <;> split <;> grind
  · exact fun call ↦ (t.steps_answer call).grows_iff h.length_le
  · exact fun call ↦ (t.steps_answer call).of_grows hlimit
  · exact fun call ↦ (t.steps_answer call).of_not_grows
  · exact fun hash ↦ ⟨toNat_and_pred (h.power hs) hsize hash, Nat.mod_lt _ h.size_pos⟩

end Stage

theorem isLeast_size_ofSize (size : Nat) :
    IsLeast {p : Nat | p.isPowerOfTwo ∧ max 1 (min size 65536) ≤ p} (ofSize size).size := by
  have hclamp : (if size < 1 then 1 else if sizeLimit < size then sizeLimit else size) =
      max 1 (min size 65536) := by
    rw [sizeLimit]
    grind
  rw [ofSize, BucketTable.size, Array.size_replicate, hclamp]
  exact isLeast_nextPowerOfTwo _

theorem stage_ofSize (size : Nat) : Stage (ofSize size).size 0 (ofSize size) := by
  obtain ⟨⟨hpower, -⟩, -⟩ := isLeast_size_ofSize size
  refine ⟨Nat.pos_of_isPowerOfTwo hpower, (Nat.mul_one _).symm, ?_, Nat.zero_le _, nofun⟩
  rw [BucketTable.size, ofSize, Array.size_replicate]

/-- The size of a table and its limit follow from what it began with and the number of its buckets.
It grows at most seven times. -/
theorem sized_of_length_lt (size : Nat) (calls : List BucketCall)
    (h : (answers answer (ofSize size) calls).1.length < 2 ^ 32) :
    IsLeast {p : Nat | p.isPowerOfTwo ∧ max 1 (min size 65536) ≤ p} (ofSize size).size ∧
      (answers answer (ofSize size) calls).1.Sized ∧ growths (ofSize size) calls ≤ 7 ∧
      ∀ others, (answers answer (ofSize size) others).1.length =
          (answers answer (ofSize size) calls).1.length →
        (answers answer (ofSize size) others).1.size = (answers answer (ofSize size) calls).1.size ∧
          (answers answer (ofSize size) others).1.limit =
            (answers answer (ofSize size) calls).1.limit := by
  have hleast := isLeast_size_ofSize size
  have hle : (ofSize size).size ≤ sizeLimit := hleast.2 ⟨⟨16, rfl⟩, by rw [sizeLimit]; omega⟩
  have hstage := (stage_ofSize size).answers h
  refine ⟨hleast, hstage.sized hleast.1.1 hle, ?_, ?_⟩
  · have hlt := hstage.lt_eight
    omega
  · intro others hl
    have hfew : (answers answer (ofSize size) others).1.length < 2 ^ 32 := by rwa [hl]
    have hothers := (stage_ofSize size).answers hfew
    have hsize := hothers.size_eq_of_length_eq hstage hl
    exact ⟨hsize, by rw [hothers.limit, hstage.limit, hsize]⟩

def fiveCalls : List BucketCall :=
  [1, 2, 3, 4, 5].map (fun n ↦ .getOrCreate (.ofList [⟨.bgp 3, ⟨0x40⟩, .address ⟨n⟩⟩]) plain)

theorem sized_of_length_lt_five :
    (answers answer (ofSize 1) fiveCalls).1.length = 5 ∧
      (answers answer (ofSize 1) fiveCalls).1.size = 4 ∧
      growths (ofSize 1) fiveCalls = 1 ∧ (answers answer (ofSize 1) fiveCalls).1.Sized := by
  have hlength : (answers answer (ofSize 1) fiveCalls).1.length = 5 := by decide +kernel
  have hfew : (answers answer (ofSize 1) fiveCalls).1.length < 2 ^ 32 := by
    rw [hlength]
    decide
  exact ⟨hlength, by decide +kernel, by decide +kernel, (sized_of_length_lt 1 fiveCalls hfew).2.1⟩

end BucketTable

end PathAttributes
