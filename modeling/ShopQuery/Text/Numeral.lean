-- Whole numbers written in decimal digits. A sign may stand in front, leading zeros are
-- allowed, and a number outside the range asked for is no number.
import ShopQuery.Text.Digit

namespace ShopQuery.Text

/-! ## Digits -/

/-- The number that a list of decimal digits denotes. -/
def decimalValue (digits : List Char) : Nat :=
  digits.foldl (fun n c => 10 * n + digitValue c) 0

/-- A number written as one or more digits and nothing else. -/
def natural? (cs : List Char) : Option Nat :=
  if !cs.isEmpty && cs.all isDigit then some (decimalValue cs) else none

/-! ## Signs and ranges -/

/-- A number with a sign in front or none. -/
def integer? : List Char → Option Int
  | '+' :: digits => (natural? digits).map Int.ofNat
  | '-' :: digits => (natural? digits).map fun n => -(n : Int)
  | digits => (natural? digits).map Int.ofNat

/-- A number without a minus sign, even where it is zero. -/
def unsigned? : List Char → Option Nat
  | '+' :: digits => natural? digits
  | digits => natural? digits

/-- A signed number of 64 bits. -/
def signed64? (s : String) : Option Int :=
  (integer? s.toList).filter fun n => Int64.minValue.toInt ≤ n && n ≤ Int64.maxValue.toInt

/-- The word of 32 bits that holds a number. -/
def word32? (n : Int) : Option UInt32 :=
  if h : 0 ≤ n ∧ n.toNat < UInt32.size then some (UInt32.ofNatLT n.toNat h.2) else none

/-- An unsigned number of 32 bits. -/
def unsigned32? (s : String) : Option UInt32 :=
  (unsigned? s.toList).bind fun n => word32? n

/-- An unsigned number of 64 bits. -/
def unsigned64? (s : String) : Option UInt64 :=
  (unsigned? s.toList).bind fun n =>
    if h : n < UInt64.size then some (UInt64.ofNatLT n h) else none

/-! ## Written numbers -/

theorem not_mem_repr {c : Char} (hc : c.isDigit = false) (n : Nat) : c ∉ n.repr.toList := by
  intro h
  rw [Nat.toList_repr] at h
  have hd := Nat.isDigit_of_mem_toDigits (by decide) (by decide) h
  rw [hc] at hd
  cases hd

theorem digits_injective {m n : Nat} (h : m.repr.toList = n.repr.toList) : m = n := by
  rw [Nat.toList_repr, Nat.toList_repr] at h
  rw [← Nat.ofDigitChars_ten_toDigits (n := m), h, Nat.ofDigitChars_ten_toDigits]

end ShopQuery.Text
