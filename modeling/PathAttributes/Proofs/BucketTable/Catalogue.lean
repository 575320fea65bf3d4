import PathAttributes.Proofs.BucketTable.Linked

namespace PathAttributes

open AttrList

inductive BucketCall
  | getOrCreate (high low : AttrList)
  | lookup (high low : AttrList)
  | get (id : Nat)
deriving DecidableEq

inductive BucketAnswer
  | given (result : Except BucketError Nat)
  | found (id : Option Nat)
  | bucket (b : Option Bucket)
deriving DecidableEq

def answers {α : Type} (step : α → BucketCall → α × BucketAnswer) :
    α → List BucketCall → α × List BucketAnswer
  | s, [] => (s, [])
  | s, call :: calls =>
    let r := answers step (step s call).1 calls
    (r.1, (step s call).2 :: r.2)

def BucketTable.answer (t : BucketTable) : BucketCall → BucketTable × BucketAnswer
  | .getOrCreate high low =>
    ((t.getOrCreate high low).table, .given (t.getOrCreate high low).result)
  | .lookup high low => (t, .found (t.lookup high low))
  | .get id => (t, .bucket (t.get? id))

/-- Canonical lists in the order in which they were first asked for. -/
abbrev Catalogue := List AttrList

namespace Catalogue

def position? (lists : Catalogue) (c : AttrList) : Option Nat := lists.findIdx? (·.same c)

def firstMissing? (c : AttrList) : Option AttrType :=
  [AttrType.origin, .asPath, .nextHop].find? (fun type ↦ (first? c.attrs type.id).isNone)

/-- A list is looked for among all lists, and becomes the last of them if no list has its
attributes and none of the mandatory ones is missing. -/
def answer (lists : Catalogue) : BucketCall → Catalogue × BucketAnswer
  | .getOrCreate high low =>
    let c := BucketTable.canonical high low
    match position? lists c with
    | some id => (lists, .given (.ok id))
    | none =>
      match firstMissing? c with
      | some type => (lists, .given (.error (.missingMandatory type)))
      | none => (lists ++ [c], .given (.ok lists.length))
  | .lookup high low => (lists, .found (position? lists (BucketTable.canonical high low)))
  | .get id => (lists, .bucket (lists[id]?.map Bucket.ofAttrs))

theorem isPrefix_answer (lists : Catalogue) (call : BucketCall) :
    lists <+: (lists.answer call).1 := by
  cases call with
  | getOrCreate high low =>
    simp only [answer]
    split
    · exact List.prefix_rfl
    · split
      · exact List.prefix_rfl
      · exact List.prefix_append lists _
  | lookup high low => exact List.prefix_rfl
  | get id => exact List.prefix_rfl

theorem isPrefix_answers (lists : Catalogue) (calls : List BucketCall) :
    lists <+: (answers answer lists calls).1 := by
  induction calls generalizing lists with
  | nil => exact List.prefix_rfl
  | cons call calls ih => exact (isPrefix_answer lists call).trans (ih _)

end Catalogue

namespace BucketTable

open Catalogue

inductive Obtained (t : BucketTable) (c : AttrList) : BucketTable → Except BucketError Nat → Prop
  | found {id : Nat} (h : t.find? c c.hash = some id) : Obtained t c t (.ok id)
  | missing {type : AttrType} (h : t.find? c c.hash = none) (hm : firstMissing? c = some type) :
    Obtained t c t (.error (.missingMandatory type))
  | created (h : t.find? c c.hash = none) (hm : firstMissing? c = none) :
    Obtained t c (t.push (.ofAttrs c)) (.ok t.length)
  | grown (h : t.find? c c.hash = none) (hm : firstMissing? c = none) :
    Obtained t c (t.push (.ofAttrs c)).grow (.ok t.length)

theorem obtained_getOrCreate (t : BucketTable) (high low : AttrList) :
    Obtained t (canonical high low) (t.getOrCreate high low).table
      (t.getOrCreate high low).result := by
  have hmissing : AttrType.mandatory.find? (fun type ↦
      ((canonical high low).get? type).isNone) = firstMissing? (canonical high low) := by
    simp only [get?_canonical]
    rfl
  simp only [BucketTable.getOrCreate, hmissing]
  cases hf : t.find? (canonical high low) (canonical high low).hash with
  | some id => exact .found hf
  | none =>
    cases hm : firstMissing? (canonical high low) with
    | some type => exact .missing hf hm
    | none =>
      dsimp only
      split
      · exact .grown hf hm
      · exact .created hf hm

namespace Holds

variable {t : BucketTable} {lists : Catalogue} {c high low : AttrList} {id : Nat}

theorem position?_eq_some_iff (h : t.Holds lists) :
    position? lists c = some id ↔ ∃ l, lists[id]? = some l ∧ l.attrs = c.attrs := by
  simp only [position?, List.findIdx?_eq_some_iff_getElem, same_iff, List.getElem?_eq_some_iff]
  constructor
  · intro ⟨hlt, he, _⟩
    exact ⟨_, ⟨hlt, rfl⟩, he⟩
  · intro ⟨l, ⟨hlt, hl⟩, he⟩
    subst hl
    refine ⟨hlt, he, fun j hj hje ↦ ?_⟩
    exact List.pairwise_iff_getElem.1 h.distinct j id (by omega) hlt hj (hje.trans he.symm)

theorem find?_eq (h : t.Holds lists) (c : AttrList) : t.find? c c.hash = position? lists c :=
  Option.ext (fun _ ↦ h.find?_eq_some_iff.trans h.position?_eq_some_iff.symm)

theorem ne_of_position? (h : position? lists c = none) : ∀ l ∈ lists, l.attrs ≠ c.attrs := by
  intro l hl he
  have hs := List.findIdx?_eq_none_iff.1 h l hl
  rw [same_iff.2 he] at hs
  cases hs

theorem getOrCreate (h : t.Holds lists) (high low : AttrList) :
    (t.answer (.getOrCreate high low)).1.Holds (lists.answer (.getOrCreate high low)).1 ∧
      (t.answer (.getOrCreate high low)).2 = (lists.answer (.getOrCreate high low)).2 := by
  have hob := t.obtained_getOrCreate high low
  have hfind := h.find?_eq (canonical high low)
  have hlength : t.length = lists.length := h.length
  rw [BucketTable.answer, Catalogue.answer]
  generalize (t.getOrCreate high low).table = t', (t.getOrCreate high low).result = result at hob ⊢
  cases hob with
  | found hf =>
    rw [← hfind, hf]
    exact ⟨h, rfl⟩
  | missing hf hm =>
    rw [← hfind, hf, hm]
    exact ⟨h, rfl⟩
  | created hf hm =>
    have hpush := h.push (ne_of_position? (hfind.symm.trans hf))
    rw [← hfind, hf, hm, hlength]
    exact ⟨hpush, rfl⟩
  | grown hf hm =>
    have hpush := h.push (ne_of_position? (hfind.symm.trans hf))
    rw [← hfind, hf, hm, hlength]
    exact ⟨hpush.grow, rfl⟩

theorem answer (h : t.Holds lists) (call : BucketCall) :
    (t.answer call).1.Holds (lists.answer call).1 ∧ (t.answer call).2 = (lists.answer call).2 := by
  cases call with
  | getOrCreate high low => exact h.getOrCreate high low
  | lookup high low => exact ⟨h, congrArg BucketAnswer.found (h.find?_eq _)⟩
  | get id => exact ⟨h, congrArg BucketAnswer.bucket (h.getElem? id)⟩

/-- By induction on the calls: each leaves the table with the buckets of the lists. -/
theorem answers (h : t.Holds lists) (calls : List BucketCall) :
    (answers BucketTable.answer t calls).1.Holds (answers Catalogue.answer lists calls).1 ∧
      (answers BucketTable.answer t calls).2 = (answers Catalogue.answer lists calls).2 := by
  induction calls generalizing t lists with
  | nil => exact ⟨h, rfl⟩
  | cons call calls ih =>
    obtain ⟨hstep, hanswer⟩ := h.answer call
    obtain ⟨hrun, hanswers⟩ := ih hstep
    exact ⟨hrun, by rw [PathAttributes.answers, PathAttributes.answers, hanswer, hanswers]⟩

theorem pairwise_same (h : t.Holds lists) :
    t.toList.Pairwise (fun b b' ↦ b.attrs.same b'.attrs = false) := by
  rw [toList, h.buckets, List.pairwise_map]
  refine h.distinct.imp (fun hne ↦ ?_)
  rw [← Bool.not_eq_true]
  exact fun hs ↦ hne (same_iff.1 hs)

theorem lookup_eq_some_iff (h : t.Holds lists) :
    t.lookup high low = some id ↔
      ∃ b, t.get? id = some b ∧ b.attrs.same (canonical high low) = true := by
  rw [lookup, h.find?_eq_some_iff, get?, h.getElem?]
  simp [same_iff, Bucket.ofAttrs]

theorem find?_of_get? (h : t.Holds lists) {b : Bucket} (hb : t.get? id = some b) :
    b.hash = b.attrs.hash ∧ t.find? b.attrs b.hash = some id := by
  rw [get?, h.getElem?] at hb
  obtain ⟨l, hl, rfl⟩ := Option.map_eq_some_iff.1 hb
  exact ⟨rfl, h.find?_eq_some_iff.2 ⟨l, hl, rfl⟩⟩

theorem isPrefix_answers (h : t.Holds lists) (calls : List BucketCall) :
    t.toList <+: (PathAttributes.answers BucketTable.answer t calls).1.toList := by
  rw [toList, toList, h.buckets, (h.answers calls).1.buckets]
  exact (Catalogue.isPrefix_answers lists calls).map _

end Holds

theorem table_getOrCreate_eq_iff (t : BucketTable) (high low : AttrList) :
    (t.getOrCreate high low).table = t ↔
      (t.lookup high low).isSome ∨ ∃ e, (t.getOrCreate high low).result = .error e := by
  have hob := t.obtained_getOrCreate high low
  have hne {t' : BucketTable} (h : t'.buckets.size = t.buckets.size + 1) : t' ≠ t := by
    intro he
    rw [he] at h
    omega
  rw [lookup]
  generalize (t.getOrCreate high low).table = t', (t.getOrCreate high low).result = result at hob ⊢
  cases hob with
  | found hf => simp [hf]
  | missing hf hm => simp
  | created hf hm => simpa [hf] using hne (Array.size_push _)
  | grown hf hm => simpa [hf] using hne (Array.size_push _)

/-- A table of buckets answers as a list of canonical lists does that is searched from its
beginning, whatever its size and however often it grows. -/
theorem refines_catalogue (size : Nat) (calls : List BucketCall) :
    ∃ (t : BucketTable) (lists : Catalogue) (replies : List BucketAnswer),
      answers BucketTable.answer (ofSize size) calls = (t, replies) ∧
      answers Catalogue.answer [] calls = (lists, replies) ∧
      t.toList = lists.map Bucket.ofAttrs ∧
      t.toList.Pairwise (fun b b' ↦ b.attrs.same b'.attrs = false) ∧
      (∀ high low id, t.lookup high low = some id ↔
        ∃ b, t.get? id = some b ∧ b.attrs.same (canonical high low) = true) ∧
      (∀ id b, t.get? id = some b →
        b.hash = b.attrs.hash ∧ t.find? b.attrs b.hash = some id) ∧
      (∀ high low, (t.getOrCreate high low).table = t ↔
        (t.lookup high low).isSome ∨ ∃ e, (t.getOrCreate high low).result = .error e) ∧
      (∀ more, t.toList <+: (answers BucketTable.answer t more).1.toList) ∧
      ∀ other, ∃ t', answers BucketTable.answer (ofSize other) calls = (t', replies) ∧
        t'.toList = t.toList := by
  obtain ⟨hold, hreplies⟩ := (holds_ofSize size).answers calls
  refine ⟨_, _, _, rfl, Prod.ext rfl hreplies.symm, hold.buckets, hold.pairwise_same, ?_, ?_, ?_,
    ?_, ?_⟩
  · exact fun _ _ _ ↦ hold.lookup_eq_some_iff
  · exact fun _ _ ↦ hold.find?_of_get?
  · exact table_getOrCreate_eq_iff _
  · exact hold.isPrefix_answers
  · intro other
    obtain ⟨hold', hreplies'⟩ := (holds_ofSize other).answers calls
    exact ⟨_, Prod.ext rfl (hreplies'.trans hreplies.symm), hold'.buckets.trans hold.buckets.symm⟩

end BucketTable

end PathAttributes
