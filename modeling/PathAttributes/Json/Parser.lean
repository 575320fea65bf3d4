import PathAttributes.Json.Number
import PathAttributes.Json.Token

namespace PathAttributes

namespace Json

/-- An array or object that has been begun: what it holds so far, in reverse, and the key of a value
to come. -/
inductive Frame
  | array (js : List Json)
  | object (ms : List (List Piece × Json)) (key : List Piece)

inductive Parser
  | value (fs : List Frame)
  | firstElement (fs : List Frame)
  | firstKey (fs : List Frame)
  | key (ms : List (List Piece × Json)) (fs : List Frame)
  | colon (ms : List (List Piece × Json)) (key : List Piece) (fs : List Frame)
  | after (j : Json) (fs : List Frame)

namespace Parser

def begin? (fs : List Frame) : Token → Option Parser
  | .openBracket => some (firstElement fs)
  | .openBrace => some (firstKey fs)
  | .string ps => some (after (.string ps) fs)
  | .word w => (ofWord? w).map (after · fs)
  | _ => none

def resume? (j : Json) : List Frame → Token → Option Parser
  | .array js :: fs, .comma => some (value (.array (j :: js) :: fs))
  | .array js :: fs, .closeBracket => some (after (.array (j :: js).reverse) fs)
  | .object ms k :: fs, .comma => some (key ((k, j) :: ms) fs)
  | .object ms k :: fs, .closeBrace => some (after (.object ((k, j) :: ms).reverse) fs)
  | _, _ => none

def step? : Parser → Token → Option Parser
  | value fs, t => begin? fs t
  | firstElement fs, .closeBracket => some (after (.array []) fs)
  | firstElement fs, t => begin? (.array [] :: fs) t
  | firstKey fs, .closeBrace => some (after (.object []) fs)
  | firstKey fs, .string k => some (colon [] k fs)
  | key ms fs, .string k => some (colon ms k fs)
  | colon ms k fs, .colon => some (value (.object ms k :: fs))
  | after j fs, t => resume? j fs t
  | _, _ => none

def json? : Parser → Option Json
  | after j [] => some j
  | _ => none

end Parser

def ofTokens? (ts : List Token) : Option Json := do
  let p ← ts.foldlM Parser.step? (.value [])
  p.json?

def parse? (s : String) : Option Json := do
  let ts ← Token.ofChars? s.toList
  ofTokens? ts

end Json

end PathAttributes
