import PathAttributes.Octets

namespace PathAttributes.Xxh32

def prime1 : UInt32 := 0x9E3779B1
def prime2 : UInt32 := 0x85EBCA77
def prime3 : UInt32 := 0xC2B2AE3D
def prime4 : UInt32 := 0x27D4EB2F
def prime5 : UInt32 := 0x165667B1

def rotateLeft (x n : UInt32) : UInt32 := (x <<< n) ||| (x >>> (32 - n))

/-- Four octets, least significant first. -/
def lane (a b c d : UInt8) : UInt32 :=
  a.toUInt32 ||| (b.toUInt32 <<< 8) ||| (c.toUInt32 <<< 16) ||| (d.toUInt32 <<< 24)

def lanes : Octets → List UInt32 × Octets
  | a :: b :: c :: d :: bs =>
    let r := lanes bs
    (lane a b c d :: r.1, r.2)
  | bs => ([], bs)

def round (acc input : UInt32) : UInt32 := rotateLeft (acc + input * prime2) 13 * prime1

structure State where
  v1 : UInt32
  v2 : UInt32
  v3 : UInt32
  v4 : UInt32

def State.start (seed : UInt32) : State :=
  ⟨seed + prime1 + prime2, seed + prime2, seed, seed - prime1⟩

/-- Takes in the lanes by fours; up to three are left over. -/
def stripes : State → List UInt32 → State × List UInt32
  | s, a :: b :: c :: d :: ls => stripes ⟨round s.v1 a, round s.v2 b, round s.v3 c, round s.v4 d⟩ ls
  | s, ls => (s, ls)

def State.converge (s : State) : UInt32 :=
  rotateLeft s.v1 1 + rotateLeft s.v2 7 + rotateLeft s.v3 12 + rotateLeft s.v4 18

def addLane (acc l : UInt32) : UInt32 := rotateLeft (acc + l * prime3) 17 * prime4

def addOctet (acc : UInt32) (b : UInt8) : UInt32 :=
  rotateLeft (acc + b.toUInt32 * prime5) 11 * prime1

def avalanche (h : UInt32) : UInt32 :=
  let h := (h ^^^ (h >>> 15)) * prime2
  let h := (h ^^^ (h >>> 13)) * prime3
  h ^^^ (h >>> 16)

def finish (length : Nat) (acc : UInt32) (ls : List UInt32) (rest : Octets) : UInt32 :=
  avalanche (rest.foldl addOctet (ls.foldl addLane (acc + UInt32.ofNat length)))

def hash (seed : UInt32) (bs : Octets) : UInt32 :=
  let ls := lanes bs
  let s := stripes (State.start seed) ls.1
  if 16 ≤ bs.length then finish bs.length s.1.converge s.2 ls.2
  else finish bs.length (seed + prime5) s.2 ls.2

end PathAttributes.Xxh32
