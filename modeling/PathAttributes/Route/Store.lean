import PathAttributes.Route.Basic

namespace PathAttributes

structure Record where
  index : UInt64
  route : Route
deriving DecidableEq

structure Store where
  records : List Record
  /-- The number that was given last. -/
  last : UInt64

namespace Store

def empty : Store := ⟨[], 0⟩

def size (s : Store) : Nat := s.records.length

def find? (s : Store) (r : Route) : Option Record :=
  s.records.find? (fun x ↦ compare x.route r == .eq)

def insert (x : Record) : List Record → List Record
  | [] => [x]
  | y :: ys => if compare x.route y.route == .lt then x :: y :: ys else y :: insert x ys

def intern (s : Store) (r : Route) : Store × Record :=
  match s.find? r with
  | some x => (s, x)
  | none =>
    let x : Record := ⟨s.last + 1, r⟩
    (⟨insert x s.records, s.last + 1⟩, x)

end Store

end PathAttributes
