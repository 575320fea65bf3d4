import PathAttributes.Json.Basic
import PathAttributes.Numeral

namespace PathAttributes.Json

def isExponent : List Char → Bool
  | [] => true
  | c :: cs =>
    let digits := match cs with
      | '+' :: ds | '-' :: ds => ds
      | ds => ds
    (c == 'e' || c == 'E') && !digits.isEmpty && digits.all Char.isDigit

def isFraction : List Char → Bool
  | '.' :: cs => !(cs.takeWhile Char.isDigit).isEmpty && isExponent (cs.dropWhile Char.isDigit)
  | cs => isExponent cs

/-- A number without sign; its integer part begins with a zero only if it is zero. -/
def isUnsigned (cs : List Char) : Bool :=
  (Numeral.ofPlainDecimal? (cs.takeWhile Char.isDigit)).isSome &&
    isFraction (cs.dropWhile Char.isDigit)

def ofWord? (w : List Char) : Option Json :=
  if w = ['n', 'u', 'l', 'l'] then some null
  else if w = ['t', 'r', 'u', 'e'] then some (bool true)
  else if w = ['f', 'a', 'l', 's', 'e'] then some (bool false)
  else match Numeral.ofPlainDecimal? w with
    | some n => some (natural n)
    | none =>
      let magnitude := match w with
        | '-' :: ds => ds
        | ds => ds
      if isUnsigned magnitude then some (number w) else none

end PathAttributes.Json
