namespace PathAttributes.Numeral

def digit (d : Nat) : Char := if d < 10 then Char.ofNat (48 + d) else Char.ofNat (87 + d)

def decimalValue? (c : Char) : Option Nat :=
  if '0' ≤ c ∧ c ≤ '9' then some (c.toNat - 48) else none

def hexValue? (c : Char) : Option Nat :=
  if '0' ≤ c ∧ c ≤ '9' then some (c.toNat - 48)
  else if 'a' ≤ c ∧ c ≤ 'f' then some (c.toNat - 87)
  else if 'A' ≤ c ∧ c ≤ 'F' then some (c.toNat - 55)
  else none

def decimal (n : Nat) : List Char :=
  if n < 10 then [digit n] else decimal (n / 10) ++ [digit (n % 10)]

def text (n : Nat) : String := String.ofList (decimal n)

def hexPair (b : UInt8) : List Char := [digit (b.toNat / 16), digit (b.toNat % 16)]

def hexShort (b : UInt8) : List Char :=
  if b.toNat < 16 then [digit b.toNat] else hexPair b

def value? (base : Nat) (digitValue? : Char → Option Nat) (cs : List Char) : Option Nat :=
  if cs.isEmpty then none
  else cs.foldlM (fun n c ↦ (digitValue? c).map (base * n + ·)) 0

def ofDecimal? : List Char → Option Nat := value? 10 decimalValue?

def ofHex? : List Char → Option Nat := value? 16 hexValue?

/-- A decimal number that begins with a zero only if it is zero. -/
def ofPlainDecimal? : List Char → Option Nat
  | '0' :: _ :: _ => none
  | cs => ofDecimal? cs

def hexText (bs : List UInt8) : String := String.ofList (bs.flatMap hexPair)

end PathAttributes.Numeral
