import PathAttributes.AsPath.Segment
import PathAttributes.Blob

namespace PathAttributes.AsPath

def segmentLimit : Nat := 255

def hasRoom : Octets → Bool
  | k :: n :: _ => k = Numbered.code SegmentKind.sequence && n.toNat < segmentLimit
  | _ => false

/-- A path with one more AS in front: in the first segment if it has room, and else in a segment of
its own. -/
def extended (bs : Octets) (asn : Asn) : Octets :=
  let alone := Segment.octets ⟨.sequence, [asn]⟩
  match bs with
  | k :: n :: rest =>
    if hasRoom (k :: n :: rest) then k :: (n + 1) :: (Asn.octets asn ++ rest)
    else alone ++ k :: n :: rest
  | bs => alone ++ bs

def growth (bs : Octets) : Nat := if hasRoom bs then 2 else 4

theorem length_extended (bs : Octets) (asn : Asn) :
    (extended bs asn).length = bs.length + growth bs := by
  have hasn : (Asn.octets asn).length = 2 := Octets.length_ofNat _ _
  have halone : (Segment.octets ⟨.sequence, [asn]⟩).length = 4 := by simp [Segment.octets, hasn]
  rcases bs with _ | ⟨k, _ | ⟨n, rest⟩⟩
  · simp [extended, growth, hasRoom, halone]
  · simp [extended, growth, hasRoom, halone]
  · by_cases h : hasRoom (k :: n :: rest) = true
    · simp only [extended, growth, h, if_true, List.length_cons, List.length_append, hasn]
      omega
    · simp only [extended, growth, h, if_false, List.length_cons, List.length_append, halone,
        Bool.false_eq_true]
      omega

def prepend? (bs : Octets) (asn : Asn) : Option Blob := Blob.ofOctets? (extended bs asn)

/-- Prepends an AS to a path of known length so many times, or until the path would be too long to
be sent; what is left of the times comes with the path. -/
def prependFrom (asn : Asn) : (length times : Nat) → Octets → Octets × Nat
  | _, 0, bs => (bs, 0)
  | length, times + 1, bs =>
    let length := length + growth bs
    if length ≤ Blob.limit then prependFrom asn length times (extended bs asn) else (bs, times + 1)

def prependTimes (bs : Octets) (asn : Asn) (times : Nat) : Octets × Nat :=
  prependFrom asn bs.length times bs

@[simp] theorem prependTimes_zero (bs : Octets) (asn : Asn) : prependTimes bs asn 0 = (bs, 0) := rfl

/-- Prepending many times is prepending one time after the other. -/
theorem prependTimes_succ (bs : Octets) (asn : Asn) (times : Nat) :
    prependTimes bs asn (times + 1) =
      match prepend? bs asn with
      | some path => prependTimes path asn times
      | none => (bs, times + 1) := by
  simp only [prependTimes, prependFrom, prepend?, Blob.ofOctets?, length_extended]
  split
  · simp [length_extended]
  · rfl

end PathAttributes.AsPath
