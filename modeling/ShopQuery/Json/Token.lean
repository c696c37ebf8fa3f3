-- The tokens of a JSON text. A text is read character by character, and a character that no
-- token can go on with ends the reading. Whether the tokens make a value is asked elsewhere.
import ShopQuery.Text.Digit

namespace ShopQuery.Json

open Text (isDigit hexValue?)

/-! ## Strings -/

/-- One piece of a string: a character, or an escape that gives a UTF-16 unit. -/
inductive Piece
  | char (c : Char)
  | unit (n : Nat)
  deriving DecidableEq, Repr

/-- The unit is the first half of a pair. -/
def isLead (n : Nat) : Bool := 0xD800 ≤ n && n ≤ 0xDBFF

/-- The unit is the second half of a pair. -/
def isTrail (n : Nat) : Bool := 0xDC00 ≤ n && n ≤ 0xDFFF

/-- The characters that the pieces stand for. Half a pair stands for no character. -/
def assemble : List Piece → Option (List Char)
  | [] => some []
  | .char c :: rest => (assemble rest).map (c :: ·)
  | .unit n :: .unit m :: rest =>
    if isLead n then
      if isTrail m then
        (assemble rest).map (Char.ofNat (0x10000 + (n - 0xD800) * 0x400 + (m - 0xDC00)) :: ·)
      else none
    else if isTrail n then none
    else (assemble (.unit m :: rest)).map (Char.ofNat n :: ·)
  | .unit n :: rest =>
    if isLead n || isTrail n then none else (assemble rest).map (Char.ofNat n :: ·)

/-! ## Tokens -/

/-- A string as it was read, or nothing if half a pair stands in it. -/
abbrev Content := Option String

inductive Token
  | openObject
  | closeObject
  | openArray
  | closeArray
  | colon
  | comma
  | null
  | bool (value : Bool)
  | number (digits : String)
  | string (content : Content)
  deriving DecidableEq, Repr

/-- The token of a word. -/
def Token.ofWord? (word : List Char) : Option Token :=
  if word == ['t', 'r', 'u', 'e'] then some (.bool true)
  else if word == ['f', 'a', 'l', 's', 'e'] then some (.bool false)
  else if word == ['n', 'u', 'l', 'l'] then some .null
  else none

/-- The token of a string, given by its pieces. -/
def Token.ofPieces (pieces : List Piece) : Token :=
  .string ((assemble pieces).map String.ofList)

/-! ## Numbers -/

/-- How far a number has been read. -/
inductive NumberStage
  | minus
  | zero
  | whole
  | point
  | fraction
  | mark
  | sign
  | exponent
  deriving DecidableEq, Repr

namespace NumberStage

/-- The stage after one character more, if the number can go on with it. -/
def next? (stage : NumberStage) (c : Char) : Option NumberStage :=
  match stage with
  | minus => if c == '0' then some zero else if isDigit c then some whole else none
  | zero => if c == '.' then some point else if c == 'e' || c == 'E' then some mark else none
  | whole =>
    if isDigit c then some whole
    else if c == '.' then some point
    else if c == 'e' || c == 'E' then some mark
    else none
  | point => if isDigit c then some fraction else none
  | fraction =>
    if isDigit c then some fraction else if c == 'e' || c == 'E' then some mark else none
  | mark =>
    if isDigit c then some exponent else if c == '+' || c == '-' then some sign else none
  | sign => if isDigit c then some exponent else none
  | exponent => if isDigit c then some exponent else none

/-- A number may end here. -/
def isComplete : NumberStage → Bool
  | zero | whole | fraction | exponent => true
  | minus | point | mark | sign => false

end NumberStage

/-! ## Reading -/

/-- The token that is being read; what it holds so far stands latest first. -/
inductive Lexeme
  | nothing
  | word (letters : List Char)
  | number (stage : NumberStage) (digits : List Char)
  | string (pieces : List Piece)
  | escape (pieces : List Piece)
  /-- Inside an escape of four hexadecimal digits. -/
  | unit (pieces : List Piece) (left : Nat) (value : Nat)
  deriving DecidableEq, Repr

/-- The tokens that have been read, latest first, and the one that is being read. -/
structure Lexer where
  tokens : List Token := []
  lexeme : Lexeme := .nothing
  deriving DecidableEq, Repr

/-- The character that a short escape stands for. -/
def escaped? (c : Char) : Option Char :=
  match c with
  | '\x22' => some '\x22'
  | '\x5c' => some '\x5c'
  | '/' => some '/'
  | 'b' => some '\x08'
  | 'f' => some '\x0c'
  | 'n' => some '\n'
  | 'r' => some '\r'
  | 't' => some '\t'
  | _ => none

/-- The four characters that may stand between tokens. -/
def isSpace (c : Char) : Bool := c == ' ' || c == '\t' || c == '\n' || c == '\r'

namespace Lexer

/-- A character where no token is being read. -/
def start? (tokens : List Token) (c : Char) : Option Lexer :=
  match c with
  | '\x7b' => some ⟨.openObject :: tokens, .nothing⟩
  | '\x7d' => some ⟨.closeObject :: tokens, .nothing⟩
  | '[' => some ⟨.openArray :: tokens, .nothing⟩
  | ']' => some ⟨.closeArray :: tokens, .nothing⟩
  | ':' => some ⟨.colon :: tokens, .nothing⟩
  | ',' => some ⟨.comma :: tokens, .nothing⟩
  | '\x22' => some ⟨tokens, .string []⟩
  | '-' => some ⟨tokens, .number .minus [c]⟩
  | '0' => some ⟨tokens, .number .zero [c]⟩
  | _ =>
    if isSpace c then some ⟨tokens, .nothing⟩
    else if isDigit c then some ⟨tokens, .number .whole [c]⟩
    else if 'a' ≤ c && c ≤ 'z' then some ⟨tokens, .word [c]⟩
    else none

/-- The tokens once the one that is being read has come to its end. -/
def settle? (x : Lexer) : Option (List Token) :=
  match x.lexeme with
  | .nothing => some x.tokens
  | .word letters => (Token.ofWord? letters.reverse).map (· :: x.tokens)
  | .number stage digits =>
    if stage.isComplete then some (.number (String.ofList digits.reverse) :: x.tokens) else none
  | _ => none

/-- One character more. -/
def step? (x : Lexer) (c : Char) : Option Lexer :=
  match x.lexeme with
  | .nothing => start? x.tokens c
  | .word letters =>
    if 'a' ≤ c && c ≤ 'z' then some { x with lexeme := .word (c :: letters) }
    else x.settle?.bind fun tokens => start? tokens c
  | .number stage digits =>
    match stage.next? c with
    | some stage => some { x with lexeme := .number stage (c :: digits) }
    | none => x.settle?.bind fun tokens => start? tokens c
  | .string pieces =>
    if c == '\x22' then some ⟨.ofPieces pieces.reverse :: x.tokens, .nothing⟩
    else if c == '\x5c' then some { x with lexeme := .escape pieces }
    else if c.toNat < 0x20 then none
    else some { x with lexeme := .string (.char c :: pieces) }
  | .escape pieces =>
    if c == 'u' then some { x with lexeme := .unit pieces 4 0 }
    else (escaped? c).map fun d => { x with lexeme := .string (.char d :: pieces) }
  | .unit pieces left value =>
    (hexValue? c).map fun d =>
      let value := 16 * value + d
      if left ≤ 1 then { x with lexeme := .string (.unit value :: pieces) }
      else { x with lexeme := .unit pieces (left - 1) value }

end Lexer

/-- The tokens of a text, if it has no other parts than tokens and space between them. -/
def tokens? (s : String) : Option (List Token) :=
  ((s.toList.foldlM Lexer.step? {}).bind Lexer.settle?).map List.reverse

end ShopQuery.Json
