-- The tokens of a TOML text. A text is read character by character; comments leave no token,
-- and whether the tokens make statements is asked elsewhere.
import ShopQuery.Text.Digit

namespace ShopQuery.Toml

open Text (hexValue?)

/-! ## Tokens -/

inductive Token
  | newline
  /-- Spaces and tabs. -/
  | blank (chars : List Char)
  | dot
  | equals
  | comma
  | openBracket
  | closeBracket
  | openBrace
  | closeBrace
  /-- Any other characters without a quote among them: a bare key or a value. -/
  | word (chars : List Char)
  /-- A string between single or double quotes. -/
  | text (content : String)
  /-- A string between tripled quotes. -/
  | block (content : String)
  deriving DecidableEq, Repr

/-! ## Characters -/

def isBlank (c : Char) : Bool := c == ' ' || c == '\t'

/-- A character that may stand in a comment, and in a string where nothing else is said. -/
def isPlain (c : Char) : Bool := c == '\t' || (0x20 ≤ c.toNat && c.toNat != 0x7F)

/-- The character that a short escape stands for. -/
def escaped? (c : Char) : Option Char :=
  match c with
  | 'b' => some '\x08'
  | 't' => some '\t'
  | 'n' => some '\n'
  | 'f' => some '\x0c'
  | 'r' => some '\r'
  | 'e' => some '\x1b'
  | '\x22' => some '\x22'
  | '\x5c' => some '\x5c'
  | _ => none

/-- How many hexadecimal digits follow a long escape. -/
def escapeWidth? (c : Char) : Option Nat :=
  match c with
  | 'x' => some 2
  | 'u' => some 4
  | 'U' => some 8
  | _ => none

/-- The two kinds of quotes. Only between double quotes is there an escape. -/
inductive Quote
  | single
  | double
  deriving DecidableEq, Repr

def Quote.char : Quote → Char
  | single => '\x27'
  | double => '\x22'

/-! ## Reading -/

/-- The token that is being read; what it holds so far stands latest first. -/
inductive Lexeme
  | nothing
  | blank (chars : List Char)
  | word (chars : List Char)
  | comment
  /-- After a carriage return that ends a line. -/
  | carriage
  /-- After one quote. -/
  | opened (q : Quote)
  /-- After two quotes. -/
  | openedTwice (q : Quote)
  | text (q : Quote) (chars : List Char)
  /-- After three quotes, where a line end is not yet part of the string. -/
  | blockStart (q : Quote)
  | block (q : Quote) (chars : List Char)
  /-- After `count` quotes inside a block. -/
  | closing (q : Quote) (chars : List Char) (count : Nat)
  /-- After a backslash, in a block or not. -/
  | escape (inBlock : Bool) (chars : List Char)
  /-- Inside a long escape. -/
  | code (inBlock : Bool) (chars : List Char) (left : Nat) (value : Nat)
  /-- After a backslash that continues a line; the line may or may not have ended yet. -/
  | gap (chars : List Char) (ended : Bool)
  /-- After a carriage return inside a block: once the line feed has come, reading goes on. -/
  | feed (next : Lexeme)
  deriving DecidableEq, Repr

/-- The tokens that have been read, latest first, and the one that is being read. -/
structure Lexer where
  tokens : List Token := []
  lexeme : Lexeme := .nothing
  deriving DecidableEq, Repr

/-- A string inside which reading goes on. -/
def Lexeme.inside (inBlock : Bool) (chars : List Char) : Lexeme :=
  if inBlock then block .double chars else text .double chars

/-- A character inside a block, other than its quote. -/
def Lexeme.extend? (q : Quote) (chars : List Char) (c : Char) : Option Lexeme :=
  if c == '\n' then some (block q ('\n' :: chars))
  else if c == '\r' then some (feed (block q ('\n' :: '\r' :: chars)))
  else if c == '\x5c' && q == .double then some (escape true chars)
  else if isPlain c then some (block q (c :: chars))
  else none

namespace Lexer

/-- A character where no token is being read. -/
def start? (tokens : List Token) (c : Char) : Option Lexer :=
  match c with
  | '\n' => some ⟨.newline :: tokens, .nothing⟩
  | '\r' => some ⟨tokens, .carriage⟩
  | '.' => some ⟨.dot :: tokens, .nothing⟩
  | '=' => some ⟨.equals :: tokens, .nothing⟩
  | ',' => some ⟨.comma :: tokens, .nothing⟩
  | '[' => some ⟨.openBracket :: tokens, .nothing⟩
  | ']' => some ⟨.closeBracket :: tokens, .nothing⟩
  | '\x7b' => some ⟨.openBrace :: tokens, .nothing⟩
  | '\x7d' => some ⟨.closeBrace :: tokens, .nothing⟩
  | '#' => some ⟨tokens, .comment⟩
  | '\x27' => some ⟨tokens, .opened .single⟩
  | '\x22' => some ⟨tokens, .opened .double⟩
  | _ => if isBlank c then some ⟨tokens, .blank [c]⟩ else some ⟨tokens, .word [c]⟩

/-- The characters, blanks apart, that end a word. -/
def delimiters : List Char :=
  ['\n', '\r', '.', '=', ',', '[', ']', '\x7b', '\x7d', '#', '\x27', '\x22']

/-- A character that goes on with a word. -/
def isWordChar (c : Char) : Bool := !isBlank c && !delimiters.contains c

/-- The token of a block that ends after `count` quotes: the last three close it. -/
def blockToken (q : Quote) (chars : List Char) (count : Nat) : Token :=
  .block (String.ofList (chars.reverse ++ List.replicate (count - 3) q.char))

/-- The tokens once the one that is being read has come to its end. -/
def settle? (x : Lexer) : Option (List Token) :=
  match x.lexeme with
  | .nothing | .comment => some x.tokens
  | .blank chars => some (.blank chars.reverse :: x.tokens)
  | .word chars => some (.word chars.reverse :: x.tokens)
  | .openedTwice _ => some (.text "" :: x.tokens)
  | .closing q chars count =>
    if 3 ≤ count then some (blockToken q chars count :: x.tokens) else none
  | _ => none

/-- One character more. -/
def step? (x : Lexer) (c : Char) : Option Lexer :=
  let settled := x.settle?.bind fun tokens => start? tokens c
  let next := fun lexeme => some { x with lexeme }
  match x.lexeme with
  | .nothing => settled
  | .blank chars => if isBlank c then next (.blank (c :: chars)) else settled
  | .word chars => if isWordChar c then next (.word (c :: chars)) else settled
  | .comment =>
    if c == '\n' || c == '\r' then settled else if isPlain c then next .comment else none
  | .carriage => if c == '\n' then start? x.tokens c else none
  | .opened q =>
    if c == q.char then next (.openedTwice q)
    else if c == '\x5c' && q == .double then next (.escape false [])
    else if isPlain c then next (.text q [c])
    else none
  | .openedTwice q => if c == q.char then next (.blockStart q) else settled
  | .text q chars =>
    if c == q.char then some ⟨.text (String.ofList chars.reverse) :: x.tokens, .nothing⟩
    else if c == '\x5c' && q == .double then next (.escape false chars)
    else if isPlain c then next (.text q (c :: chars))
    else none
  | .blockStart q =>
    if c == '\n' then next (.block q [])
    else if c == '\r' then next (.feed (.block q []))
    else if c == q.char then next (.closing q [] 1)
    else (Lexeme.extend? q [] c).bind next
  | .block q chars =>
    if c == q.char then next (.closing q chars 1) else (Lexeme.extend? q chars c).bind next
  | .closing q chars count =>
    if c == q.char then
      if count < 4 then next (.closing q chars (count + 1))
      else some ⟨blockToken q chars 5 :: x.tokens, .nothing⟩
    else if 3 ≤ count then settled
    else (Lexeme.extend? q (List.replicate count q.char ++ chars) c).bind next
  | .escape inBlock chars =>
    match escaped? c, escapeWidth? c with
    | some d, _ => next (.inside inBlock (d :: chars))
    | none, some width => next (.code inBlock chars width 0)
    | none, none =>
      if !inBlock then none
      else if isBlank c then next (.gap chars false)
      else if c == '\n' then next (.gap chars true)
      else if c == '\r' then next (.feed (.gap chars true))
      else none
  | .code inBlock chars left value =>
    (hexValue? c).bind fun d =>
      let value := 16 * value + d
      if 1 < left then next (.code inBlock chars (left - 1) value)
      else if value.isValidChar then next (.inside inBlock (Char.ofNat value :: chars))
      else none
  | .gap chars ended =>
    if isBlank c then next (.gap chars ended)
    else if c == '\n' then next (.gap chars true)
    else if c == '\r' then next (.feed (.gap chars true))
    else if !ended then none
    else if c == '\x22' then next (.closing .double chars 1)
    else (Lexeme.extend? .double chars c).bind next
  | .feed lexeme => if c == '\n' then next lexeme else none

end Lexer

/-- The tokens of a text. -/
def tokens? (s : List Char) : Option (List Token) :=
  ((s.foldlM Lexer.step? {}).bind Lexer.settle?).map List.reverse

end ShopQuery.Toml
