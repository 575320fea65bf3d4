import PathAttributes.Json.Basic
import PathAttributes.Numeral

namespace PathAttributes

/-- A symbol of a JSON text; a word is a number or one of the names `null`, `true` and `false`. -/
inductive Token
  | openBrace | closeBrace | openBracket | closeBracket | colon | comma
  | word (w : List Char)
  | string (ps : List Piece)
deriving DecidableEq

namespace Piece

def unitChars (n : Nat) : List Char := (Octets.ofNat 2 n).flatMap Numeral.hexPair

def chars : Piece → List Char
  | plain c => [c]
  | escaped c => ['\\', ((letters.find? (·.1 == c)).map (·.2)).getD c]
  | unit n => '\\' :: 'u' :: unitChars n

end Piece

namespace Token

def chars : Token → List Char
  | openBrace => ['{']
  | closeBrace => ['}']
  | openBracket => ['[']
  | closeBracket => [']']
  | colon => [':']
  | comma => [',']
  | word w => w
  | string ps => '"' :: (ps.flatMap Piece.chars ++ ['"'])

def ofMark? : Char → Option Token
  | '{' => some openBrace
  | '}' => some closeBrace
  | '[' => some openBracket
  | ']' => some closeBracket
  | ':' => some colon
  | ',' => some comma
  | _ => none

def isSpace (c : Char) : Bool := c == ' ' || c == '\n' || c == '\r' || c == '\t'

def isWordChar (c : Char) : Bool := c.isAlphanum || c == '+' || c == '-' || c == '.'

/-- Where a reader of symbols stands; what it has read of the current one is in reverse. -/
inductive Place
  | between
  | word (w : List Char)
  | string (ps : List Piece)
  | escape (ps : List Piece)
  | unit (ps : List Piece) (digits n : Nat)

structure Lexer where
  read : List Token
  place : Place

namespace Lexer

def begin? (ts : List Token) (c : Char) : Option Lexer :=
  if isSpace c then some ⟨ts, .between⟩
  else if c = '"' then some ⟨ts, .string []⟩
  else if isWordChar c then some ⟨ts, .word [c]⟩
  else (ofMark? c).map (fun t ↦ ⟨t :: ts, .between⟩)

def step? (l : Lexer) (c : Char) : Option Lexer :=
  match l.place with
  | .between => begin? l.read c
  | .word w =>
    if isWordChar c then some ⟨l.read, .word (c :: w)⟩ else begin? (word w.reverse :: l.read) c
  | .string ps =>
    if c = '"' then some ⟨string ps.reverse :: l.read, .between⟩
    else if c = '\\' then some ⟨l.read, .escape ps⟩
    else some ⟨l.read, .string (.plain c :: ps)⟩
  | .escape ps =>
    if c = 'u' then some ⟨l.read, .unit ps 0 0⟩
    else (Piece.ofLetter? c).map (fun d ↦ ⟨l.read, .string (.escaped d :: ps)⟩)
  | .unit ps digits n =>
    (Numeral.hexValue? c).map (fun d ↦
      if digits = 3 then ⟨l.read, .string (.unit (16 * n + d) :: ps)⟩
      else ⟨l.read, .unit ps (digits + 1) (16 * n + d)⟩)

def tokens? (l : Lexer) : Option (List Token) :=
  match l.place with
  | .between => some l.read.reverse
  | .word w => some (word w.reverse :: l.read).reverse
  | _ => none

end Lexer

def ofChars? (cs : List Char) : Option (List Token) := do
  let l ← cs.foldlM Lexer.step? ⟨[], .between⟩
  l.tokens?

end Token

end PathAttributes
