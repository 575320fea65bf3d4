import PathAttributes.Blob

namespace PathAttributes.IntSet

/-- The members of a set, four octets each; none if octets are left over. -/
def members? : Octets → Option (List UInt32)
  | [] => some []
  | a :: b :: c :: d :: bs => (members? bs).map (UInt32.ofNat (Octets.toNat [a, b, c, d]) :: ·)
  | _ => none

def octets (ms : List UInt32) : Octets := ms.flatMap (fun m ↦ Octets.ofNat 4 m.toNat)

def withoutRepeats : List UInt32 → List UInt32
  | [] => []
  | [m] => [m]
  | m :: n :: ms => if m = n then withoutRepeats (n :: ms) else m :: withoutRepeats (n :: ms)

/-- The set with its members in ascending order and each but once; octets that are no set stay as
they are. -/
def canonical (bs : Octets) : Octets :=
  ((members? bs).bind (fun ms ↦
    Blob.ofOctets? (octets (withoutRepeats (ms.mergeSort (fun m n ↦ decide (m ≤ n))))))).getD bs

end PathAttributes.IntSet
