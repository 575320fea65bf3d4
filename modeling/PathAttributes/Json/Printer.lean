import PathAttributes.Json.Token

namespace PathAttributes.Json

mutual

/-- The symbols of a value in reverse, in front of others. -/
def tokensOnto (ts : List Token) : Json → List Token
  | null => .word ['n', 'u', 'l', 'l'] :: ts
  | bool true => .word ['t', 'r', 'u', 'e'] :: ts
  | bool false => .word ['f', 'a', 'l', 's', 'e'] :: ts
  | natural n => .word (Numeral.decimal n) :: ts
  | number w => .word w :: ts
  | string ps => .string ps :: ts
  | array js => .closeBracket :: elementsOnto (.openBracket :: ts) js
  | object ms => .closeBrace :: membersOnto (.openBrace :: ts) ms

def elementsOnto (ts : List Token) : List Json → List Token
  | [] => ts
  | [j] => tokensOnto ts j
  | j :: js => elementsOnto (.comma :: tokensOnto ts j) js

def membersOnto (ts : List Token) : List (List Piece × Json) → List Token
  | [] => ts
  | [(k, j)] => tokensOnto (.colon :: .string k :: ts) j
  | (k, j) :: ms => membersOnto (.comma :: tokensOnto (.colon :: .string k :: ts) j) ms

end

def tokens (j : Json) : List Token := (tokensOnto [] j).reverse

def print (j : Json) : String := String.ofList (j.tokens.flatMap Token.chars)

end PathAttributes.Json
