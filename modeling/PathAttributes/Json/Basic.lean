import PathAttributes.Octets

namespace PathAttributes

/-- A character of a string as it is written: for itself, by a letter after a backslash, or by a
UTF-16 unit. -/
inductive Piece
  | plain (c : Char)
  | escaped (c : Char)
  | unit (n : Nat)
deriving DecidableEq

/-- A JSON value. Integers without sign are told apart from the other numbers, which keep their
text. -/
inductive Json
  | null
  | bool (b : Bool)
  | natural (n : Nat)
  | number (w : List Char)
  | string (ps : List Piece)
  | array (js : List Json)
  | object (ms : List (List Piece × Json))

namespace Piece

def letters : List (Char × Char) :=
  [('"', '"'), ('\\', '\\'), ('/', '/'), ('\x08', 'b'), ('\x0c', 'f'), ('\n', 'n'),
    ('\r', 'r'), ('\t', 't')]

def ofLetter? (letter : Char) : Option Char := (letters.find? (·.2 == letter)).map (·.1)

/-- Control characters must not be written for themselves. -/
def isControl (c : Char) : Bool := c.toNat < 0x20

def isClean : Piece → Bool
  | plain c => !isControl c
  | _ => true

def isHighSurrogate (n : Nat) : Bool := 0xD800 ≤ n && n < 0xDC00

def isLowSurrogate (n : Nat) : Bool := 0xDC00 ≤ n && n < 0xE000

def pairCode (high low : Nat) : Nat := (high - 0xD800) * 0x400 + (low - 0xDC00) + 0x10000

/-- The code points of pieces; a surrogate that is not one of a pair stands for itself. -/
def codes : List Piece → List Nat
  | [] => []
  | plain c :: ps | escaped c :: ps => c.toNat :: codes ps
  | [unit n] => [n]
  | unit n :: unit m :: ps =>
    if isHighSurrogate n && isLowSurrogate m then pairCode n m :: codes ps
    else n :: codes (unit m :: ps)
  | unit n :: p :: ps => n :: codes (p :: ps)

def chars? (ps : List Piece) : Option (List Char) :=
  if ps.all isClean && (codes ps).all (fun n ↦ decide n.isValidChar) then
    some ((codes ps).map Char.ofNat)
  else none

/-- The octets of a code point in UTF-8, by the same rule also for surrogates. -/
def codeOctets (n : Nat) : Octets :=
  let tail (m : Nat) : UInt8 := UInt8.ofNat (0x80 + m % 0x40)
  if n < 0x80 then [UInt8.ofNat n]
  else if n < 0x800 then [UInt8.ofNat (0xC0 + n / 0x40), tail n]
  else if n < 0x10000 then [UInt8.ofNat (0xE0 + n / 0x1000), tail (n / 0x40), tail n]
  else [UInt8.ofNat (0xF0 + n / 0x40000), tail (n / 0x1000), tail (n / 0x40), tail n]

def octets (ps : List Piece) : Octets := (codes ps).flatMap codeOctets

def ofChar (c : Char) : Piece :=
  if c = '/' then plain c
  else if letters.any (·.1 == c) then escaped c
  else if isControl c then unit c.toNat
  else plain c

end Piece

namespace Json

def ofChars (cs : List Char) : Json := string (cs.map Piece.ofChar)

def ofText (s : String) : Json := ofChars s.toList

def chars? : Json → Option (List Char)
  | string ps => Piece.chars? ps
  | _ => none

mutual

def isClean : Json → Bool
  | null | bool _ | natural _ | number _ => true
  | string ps => ps.all Piece.isClean
  | array js => areClean js
  | object ms => membersClean ms

def areClean : List Json → Bool
  | [] => true
  | j :: js => isClean j && areClean js

def membersClean : List (List Piece × Json) → Bool
  | [] => true
  | (k, j) :: ms => k.all Piece.isClean && isClean j && membersClean ms

end

end Json

end PathAttributes
