import PathAttributes.AsPath.Segment
import PathAttributes.Fault

namespace PathAttributes.AsPath

/-- The whole segments at the start of a path, and the rest, which starts with none. -/
def split (bs : Octets) : List Segment × Octets :=
  match h : Segment.read? bs with
  | some r =>
    have := Segment.length_lt_of_read? h
    let s := split r.2
    (r.1 :: s.1, s.2)
  | none => ([], bs)
termination_by bs.length

def segments (bs : Octets) : List Segment := (split bs).1

def isValid (bs : Octets) : Bool := (split bs).2.isEmpty

def check (bs : Octets) : Except AttrFault Unit :=
  if isValid bs then .ok () else .error .malformedAsPath

/-- What a reader finds next, and where it goes on; after a fault it finds nothing more. -/
def next? (bs : Octets) : Option (Except AttrFault Segment × Octets) :=
  if bs.isEmpty then none
  else match Segment.read? bs with
    | some r => some (.ok r.1, r.2)
    | none => some (.error .malformedAsPath, [])

theorem length_lt_of_next? {bs : Octets} {r : Except AttrFault Segment × Octets}
    (h : next? bs = some r) : r.2.length < bs.length := by
  rw [next?] at h
  split at h
  · cases h
  · split at h <;> cases h
    · exact Segment.length_lt_of_read? ‹_›
    · cases bs <;> simp_all

def items (bs : Octets) : List (Except AttrFault Segment) :=
  match h : next? bs with
  | some r =>
    have := length_lt_of_next? h
    r.1 :: items r.2
  | none => []
termination_by bs.length

def contains (bs : Octets) (asn : Asn) : Bool := (segments bs).any (·.members.contains asn)

/-- The number of ASes for which a segment stands; a set stands for one of its members. -/
def weight (s : Segment) : Nat :=
  match s.kind with
  | .set => 1
  | .sequence => s.members.length

def pathLength (bs : Octets) : Nat := (segments bs).foldl (fun n s ↦ n + weight s) 0

theorem split_of_read? {bs : Octets} {r : Segment × Octets} (h : Segment.read? bs = some r) :
    split bs = (r.1 :: (split r.2).1, (split r.2).2) := by
  rw [split]
  split <;> simp_all

theorem split_of_read?_none {bs : Octets} (h : Segment.read? bs = none) : split bs = ([], bs) := by
  rw [split]
  split <;> simp_all

theorem items_of_next? {bs : Octets} {r : Except AttrFault Segment × Octets}
    (h : next? bs = some r) : items bs = r.1 :: items r.2 := by
  rw [items]
  split <;> simp_all

theorem items_nil : items [] = [] := by
  rw [items]
  split
  · rename_i h
    cases h
  · rfl

/-- A reader finds the segments in order, and then a fault if anything is left. -/
theorem items_eq (bs : Octets) :
    items bs = (segments bs).map .ok ++ if isValid bs then [] else [.error .malformedAsPath] := by
  fun_induction split bs with
  | case1 bs r h _ _ ih =>
    have hb : bs ≠ [] := by
      rintro rfl
      cases h
    have hn : next? bs = some (.ok r.1, r.2) := by simp [next?, h, hb]
    simp [items_of_next? hn, ih, segments, isValid, split_of_read? h]
  | case2 bs h =>
    simp only [segments, isValid, split_of_read?_none h]
    cases bs with
    | nil => simp [items_nil]
    | cons b bs =>
      have hn : next? (b :: bs) = some (.error .malformedAsPath, []) := by simp [next?, h]
      simp [items_of_next? hn, items_nil]

end PathAttributes.AsPath
