import PathAttributes.Numeral
import PathAttributes.Text.Blank
import PathAttributes.Text.Pieces

namespace PathAttributes

/-- The flags octet of an attribute; the low four bits have no meaning. -/
@[ext] structure Flags where
  bits : UInt8
deriving DecidableEq

namespace Flags

def empty : Flags := ⟨0⟩

def optionalBit : Flags := ⟨0x80⟩

def transitiveBit : Flags := ⟨0x40⟩

def partialBit : Flags := ⟨0x20⟩

def extendedBit : Flags := ⟨0x10⟩

def contains (f g : Flags) : Bool := f.bits &&& g.bits == g.bits

def union (f g : Flags) : Flags := ⟨f.bits ||| g.bits⟩

def inter (f g : Flags) : Flags := ⟨f.bits &&& g.bits⟩

def category (f : Flags) : Flags := f.inter (optionalBit.union transitiveBit)

def ofOctet (b : UInt8) : Flags := ⟨b &&& 0xF0⟩

def isDefined (f : Flags) : Bool := f.bits &&& 0x0F == 0

def named : List (String × Flags) :=
  [("OPTIONAL", optionalBit), ("TRANSITIVE", transitiveBit), ("PARTIAL", partialBit),
    ("EXTENDED", extendedBit)]

def words (f : Flags) : List (List Char) :=
  let rest := f.bits &&& 0x0F
  (named.filter (fun n ↦ f.contains n.2)).map (fun n ↦ n.1.toList) ++
    if rest = 0 then [] else [['0', 'x'] ++ Numeral.hexShort rest]

def chars (f : Flags) : List Char := List.intercalate [' ', '|', ' '] f.words

def text (f : Flags) : String := String.ofList f.chars

/-- A number of eight bits in hexadecimal, with or without a plus sign. -/
def ofHexWord? (cs : List Char) : Option Flags := do
  let digits := match cs with
    | '+' :: ds => ds
    | ds => ds
  let n ← Numeral.ofHex? digits
  if n < 256 then some ⟨UInt8.ofNat n⟩ else none

def ofWord? : List Char → Option Flags
  | '0' :: 'x' :: ds => ofHexWord? ds
  | cs => (named.find? (fun n ↦ n.1.toList == cs)).map (·.2)

/-- The union of the words between bars, blanks around them aside; a blank text has no flags. -/
def ofChars? (cs : List Char) : Option Flags :=
  if (Text.trim cs).isEmpty then some empty
  else (Text.pieces '|' cs).foldlM (fun f w ↦ (ofWord? (Text.trim w)).map f.union) empty

def ofText? (s : String) : Option Flags := ofChars? s.toList

end Flags

end PathAttributes
