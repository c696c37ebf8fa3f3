-- Values that are written as one word: numbers, truth values, dates and times.
import ShopQuery.Text.Decimal

namespace ShopQuery.Toml

/-- A value without parts. -/
inductive Scalar
  | text (content : String)
  | integer (value : Int)
  /-- The magnitude of a fraction; infinity and what is not a number have none. -/
  | float (magnitude : Option Text.Decimal)
  | bool (value : Bool)
  /-- A date, a time, or both. -/
  | moment
  deriving DecidableEq, Repr

open Text (isDigit hexValue? natural? decimalValue)

/-! ## Digits -/

/-- The digits of a number between which single underscores may stand: the number begins and
ends with a digit. -/
def digits? (isDigit : Char → Bool) : List Char → Option (List Char)
  | [] => none
  | [c] => if isDigit c then some [c] else none
  | c :: '_' :: rest => if isDigit c then (digits? isDigit rest).map (c :: ·) else none
  | c :: rest => if isDigit c then (digits? isDigit rest).map (c :: ·) else none

/-- The digits of a base of at most sixteen. -/
def isDigitIn (base : Nat) (c : Char) : Bool := (hexValue? c).any (· < base)

/-- The number that a list of digits denotes in a base. -/
def valueIn (base : Nat) (digits : List Char) : Nat :=
  digits.foldl (fun n c => base * n + (hexValue? c).getD 0) 0

/-- A number in a base other than ten. -/
def inBase? (base : Nat) (cs : List Char) : Option Int :=
  (digits? (isDigitIn base) cs).map fun ds => (valueIn base ds : Int)

/-! ## Integers -/

/-- The digits of a decimal number that does not begin with a needless zero. -/
def whole? (cs : List Char) : Option (List Char) :=
  match digits? isDigit cs with
  | some ('0' :: _ :: _) => none
  | found => found

def integer? : List Char → Option Int
  | '0' :: 'x' :: rest => inBase? 16 rest
  | '0' :: 'o' :: rest => inBase? 8 rest
  | '0' :: 'b' :: rest => inBase? 2 rest
  | '+' :: rest => (whole? rest).map fun ds => (decimalValue ds : Int)
  | '-' :: rest => (whole? rest).map fun ds => -(decimalValue ds : Int)
  | rest => (whole? rest).map fun ds => (decimalValue ds : Int)

/-! ## Fractions -/

/-- The exponent of a fraction, without the letter before it. -/
def exponent? : List Char → Option Int
  | '+' :: rest => (digits? isDigit rest).map fun ds => (decimalValue ds : Int)
  | '-' :: rest => (digits? isDigit rest).map fun ds => -(decimalValue ds : Int)
  | rest => (digits? isDigit rest).map fun ds => (decimalValue ds : Int)

/-- A fraction without a sign: it has a point, an exponent, or both. -/
def magnitude? (cs : List Char) : Option Text.Decimal := do
  let isMark := fun c => c == 'e' || c == 'E'
  let mantissa := cs.takeWhile (!isMark ·)
  let wholePart := mantissa.takeWhile (· != '.')
  let whole ← whole? wholePart
  let fraction ← match mantissa.dropWhile (· != '.') with
    | [] => some []
    | _ :: rest => digits? isDigit rest
  let exponent ← match cs.dropWhile (!isMark ·) with
    | [] => if fraction.isEmpty then none else some 0
    | _ :: rest => exponent? rest
  return ⟨whole ++ fraction, exponent - fraction.length⟩

def unsignedFloat? (cs : List Char) : Option Scalar :=
  if cs == ['i', 'n', 'f'] || cs == ['n', 'a', 'n'] then some (.float none)
  else (magnitude? cs).map fun d => .float (some d)

def float? : List Char → Option Scalar
  | '+' :: rest => unsignedFloat? rest
  | '-' :: rest => unsignedFloat? rest
  | rest => unsignedFloat? rest

/-! ## Dates and times -/

/-- A number of two digits in a range. -/
def twoDigits? (low high : Nat) (a b : Char) : Option Nat :=
  (natural? [a, b]).filter fun n => low ≤ n && n ≤ high

def isLeapYear (year : Nat) : Bool :=
  year % 4 == 0 && (year % 100 != 0 || year % 400 == 0)

def daysInMonth (year month : Nat) : Nat :=
  if month == 2 then if isLeapYear year then 29 else 28
  else if [4, 6, 9, 11].contains month then 30
  else 31

/-- What follows a date. -/
def afterDate? : List Char → Option (List Char)
  | y₁ :: y₂ :: y₃ :: y₄ :: '-' :: m₁ :: m₂ :: '-' :: d₁ :: d₂ :: rest => do
    let year ← natural? [y₁, y₂, y₃, y₄]
    let month ← twoDigits? 1 12 m₁ m₂
    let _ ← twoDigits? 1 (daysInMonth year month) d₁ d₂
    return rest
  | _ => none

/-- What follows the fraction of a second, if there is one. -/
def afterFraction? : List Char → Option (List Char)
  | '.' :: rest =>
    if (rest.takeWhile isDigit).isEmpty then none else some (rest.dropWhile isDigit)
  | rest => some rest

/-- What follows a time. The seconds may be missing, and there may be a leap second. -/
def afterTime? : List Char → Option (List Char)
  | h₁ :: h₂ :: ':' :: m₁ :: m₂ :: rest => do
    let _ ← twoDigits? 0 23 h₁ h₂
    let _ ← twoDigits? 0 59 m₁ m₂
    match rest with
    | ':' :: s₁ :: s₂ :: rest => do
      let _ ← twoDigits? 0 60 s₁ s₂
      afterFraction? rest
    | ':' :: _ => none
    | rest => some rest
  | _ => none

/-- A text that says how far a time is from universal time, or says nothing. -/
def isOffset : List Char → Bool
  | [] => true
  | [c] => c == 'Z' || c == 'z'
  | [s, h₁, h₂, ':', m₁, m₂] =>
    (s == '+' || s == '-') && (twoDigits? 0 23 h₁ h₂).isSome && (twoDigits? 0 59 m₁ m₂).isSome
  | _ => false

/-- A date, a time, or a date and a time with a letter or a space between them. Only a date
with a time has an offset. -/
def isMoment (cs : List Char) : Bool :=
  match afterDate? cs with
  | some [] => true
  | some (c :: rest) => (c == 'T' || c == 't' || c == ' ') && (afterTime? rest).any isOffset
  | none => (afterTime? cs).any List.isEmpty

/-! ## Words -/

/-- The value of a word. -/
def Scalar.ofWord? (cs : List Char) : Option Scalar :=
  if cs == ['t', 'r', 'u', 'e'] then some (.bool true)
  else if cs == ['f', 'a', 'l', 's', 'e'] then some (.bool false)
  else if isMoment cs then some .moment
  else ((integer? cs).map .integer).or (float? cs)

end ShopQuery.Toml
