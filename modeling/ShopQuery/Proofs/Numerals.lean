-- Numbers as they are written. A grammar says which characters write a number and which number
-- they write, and the readers accept exactly what it derives, within their range.
import Mathlib.Algebra.Group.Int.Defs
import Mathlib.Algebra.Group.Nat.Defs
import Mathlib.Data.List.Induction
import ShopQuery.Text.Decimal

namespace ShopQuery.Text

/-! ## The grammar -/

/-- Decimal digits, at least one of them, and the number that they write. -/
inductive Writes : List Char → Nat → Prop
  | digit (d : Fin 10) : Writes [Nat.digitChar d] d
  | more {cs : List Char} {n : Nat} (d : Fin 10) :
    Writes cs n → Writes (cs ++ [Nat.digitChar d]) (10 * n + d)

/-- Decimal digits with a plus sign in front or none. -/
def WritesUnsigned (cs : List Char) (n : Nat) : Prop :=
  Writes cs n ∨ ∃ digits, cs = '+' :: digits ∧ Writes digits n

/-- Decimal digits with a sign in front or none, and the number that they write. -/
inductive WritesInteger : List Char → Int → Prop
  | bare {cs : List Char} {n : Nat} : Writes cs n → WritesInteger cs n
  | plus {cs : List Char} {n : Nat} : Writes cs n → WritesInteger ('+' :: cs) n
  | minus {cs : List Char} {n : Nat} : Writes cs n → WritesInteger ('-' :: cs) (-n)

/-! ## Digits -/

theorem isDigit_digitChar (d : Fin 10) : isDigit (Nat.digitChar d) = true := by
  revert d
  decide

theorem digitValue_digitChar (d : Fin 10) : digitValue (Nat.digitChar d) = d := by
  revert d
  decide

/-- A digit is the character of its value. -/
theorem exists_digitChar {c : Char} (h : isDigit c = true) : ∃ d : Fin 10, c = Nat.digitChar d := by
  unfold isDigit at h
  rw [Bool.and_eq_true, decide_eq_true_eq, decide_eq_true_eq, Char.le_def, Char.le_def] at h
  have hlow : 48 ≤ c.toNat := h.1
  have hhigh : c.toNat ≤ 57 := h.2
  have hvalue : (Nat.digitChar (c.toNat - 48)).toNat = c.toNat := by
    rw [Nat.toNat_digitChar_of_lt_ten (by omega)]
    omega
  exact ⟨⟨c.toNat - 48, by omega⟩, (Char.toNat_inj.mp hvalue).symm⟩

theorem hexValue?_hexDigit {n : Nat} (h : n < 16) : hexValue? (hexDigit n) = some n := by
  have hdigits : ∀ d : Fin 16, hexValue? (hexDigit d) = some d.val := by decide
  exact hdigits ⟨n, h⟩

theorem decimalValue_digit (d : Fin 10) : decimalValue [Nat.digitChar d] = d :=
  (Nat.zero_add _).trans (digitValue_digitChar d)

theorem decimalValue_concat (cs : List Char) (c : Char) :
    decimalValue (cs ++ [c]) = 10 * decimalValue cs + digitValue c := by
  unfold decimalValue
  rw [List.foldl_append]
  rfl

/-! ## What the readers accept -/

theorem natural?_eq_some {cs : List Char} {n : Nat} : natural? cs = some n ↔
    cs ≠ [] ∧ (∀ c ∈ cs, isDigit c = true) ∧ decimalValue cs = n := by
  unfold natural?
  rw [Option.ite_none_right_eq_some, Bool.and_eq_true, List.all_eq_true, Option.some.injEq,
    and_assoc]
  simp

theorem writes_of_digits {cs : List Char} (hne : cs ≠ []) (hcs : ∀ c ∈ cs, isDigit c = true) :
    Writes cs (decimalValue cs) := by
  -- From the back, since a digit more multiplies what is in front of it.
  induction cs using List.reverseRecOn with
  | nil => exact absurd rfl hne
  | append_singleton cs c ih =>
    obtain ⟨d, rfl⟩ := exists_digitChar (hcs c (List.mem_append_right _ List.mem_cons_self))
    by_cases hempty : cs = []
    · subst hempty
      rw [List.nil_append, decimalValue_digit]
      exact .digit d
    · rw [decimalValue_concat, digitValue_digitChar]
      exact .more d (ih hempty fun c hc => hcs c (List.mem_append_left _ hc))

/-- The reader of digits accepts what the grammar derives. -/
theorem natural?_iff_writes {cs : List Char} {n : Nat} : natural? cs = some n ↔ Writes cs n := by
  constructor
  · intro h
    obtain ⟨hne, hcs, rfl⟩ := natural?_eq_some.mp h
    exact writes_of_digits hne hcs
  · intro h
    rw [natural?_eq_some]
    induction h with
    | digit d =>
      exact ⟨List.cons_ne_nil _ _, List.forall_mem_singleton.mpr (isDigit_digitChar d),
        decimalValue_digit d⟩
    | more d _ ih =>
      obtain ⟨_, hcs, hvalue⟩ := ih
      refine ⟨List.append_ne_nil_of_right_ne_nil _ (List.cons_ne_nil _ _), ?_, ?_⟩
      · rw [List.forall_mem_append]
        exact ⟨hcs, List.forall_mem_singleton.mpr (isDigit_digitChar d)⟩
      · rw [decimalValue_concat, digitValue_digitChar, hvalue]

theorem digits_of_writes {cs : List Char} {n : Nat} (h : Writes cs n) :
    cs ≠ [] ∧ (∀ c ∈ cs, isDigit c = true) ∧ decimalValue cs = n :=
  natural?_eq_some.mp (natural?_iff_writes.mpr h)

/-- Digits begin with a digit, so a sign is never one of them. -/
theorem not_writes_cons {c : Char} (hc : isDigit c = false) (digits : List Char) (n : Nat) :
    ¬ Writes (c :: digits) n := by
  intro h
  obtain ⟨_, hcs, _⟩ := digits_of_writes h
  rw [hcs c List.mem_cons_self] at hc
  cases hc

theorem unsigned?_iff_writesUnsigned {cs : List Char} {n : Nat} :
    unsigned? cs = some n ↔ WritesUnsigned cs n := by
  unfold unsigned? WritesUnsigned
  split
  case h_1 digits =>
    rw [natural?_iff_writes, or_iff_right (not_writes_cons (by decide) digits n)]
    simp
  case h_2 hplus =>
    rw [natural?_iff_writes, or_iff_left]
    rintro ⟨digits, rfl, _⟩
    exact hplus digits rfl

/-- A number has a word exactly if it is below the bound, and the word holds it. -/
theorem map_word_iff {α : Type} {toNat : α → Nat} {m n bound : Nat} {p : Prop} [Decidable p]
    {word : p → α} (hword : ∀ h, toNat (word h) = m) (hp : p ↔ m < bound) :
    (if h : p then some (word h) else none).map toNat = some n ↔ m = n ∧ n < bound := by
  split
  case isTrue h =>
    rw [Option.map_some, Option.some.injEq, hword]
    exact (and_iff_left_of_imp fun hm => hm ▸ hp.mp h).symm
  case isFalse h =>
    rw [Option.map_none]
    constructor
    · intro hn
      cases hn
    · rintro ⟨rfl, hn⟩
      exact absurd (hp.mpr hn) h

theorem unsigned64?_iff {s : String} {n : Nat} : (unsigned64? s).map UInt64.toNat = some n ↔
    WritesUnsigned s.toList n ∧ n < 2 ^ 64 := by
  unfold unsigned64?
  rw [← unsigned?_iff_writesUnsigned]
  rcases unsigned? s.toList with _ | m
  · simp
  · rw [Option.bind_some, Option.some.injEq]
    exact map_word_iff (fun _ => UInt64.toNat_ofNatLT) Iff.rfl

theorem unsigned32?_iff {s : String} {n : Nat} : (unsigned32? s).map UInt32.toNat = some n ↔
    WritesUnsigned s.toList n ∧ n < 2 ^ 32 := by
  unfold unsigned32? word32?
  rw [← unsigned?_iff_writesUnsigned]
  rcases unsigned? s.toList with _ | m
  · simp
  · rw [Option.bind_some, Option.some.injEq]
    exact map_word_iff (fun _ => UInt32.toNat_ofNatLT)
      (and_iff_right (Int.natCast_nonneg m))

theorem integer?_iff_writesInteger {cs : List Char} {n : Int} :
    integer? cs = some n ↔ WritesInteger cs n := by
  constructor
  · intro h
    unfold integer? at h
    split at h
    case h_1 =>
      obtain ⟨m, hm, rfl⟩ := Option.map_eq_some_iff.mp h
      exact .plus (natural?_iff_writes.mp hm)
    case h_2 =>
      obtain ⟨_, hread, rfl⟩ := Option.map_eq_some_iff.mp h
      obtain ⟨m, hm, hcast⟩ := Option.bind_eq_some_iff.mp hread
      obtain rfl := Option.some.inj hcast
      exact .minus (natural?_iff_writes.mp hm)
    case h_3 =>
      obtain ⟨m, hm, rfl⟩ := Option.map_eq_some_iff.mp h
      exact .bare (natural?_iff_writes.mp hm)
  · intro h
    cases h with
    | @bare _ m hm =>
      unfold integer?
      split
      case h_1 digits => exact absurd hm (not_writes_cons (by decide) digits m)
      case h_2 digits => exact absurd hm (not_writes_cons (by decide) digits m)
      case h_3 => simp [natural?_iff_writes.mpr hm]
    | plus hm => simp [integer?, natural?_iff_writes.mpr hm]
    | minus hm => simp [integer?, natural?_iff_writes.mpr hm]

theorem signed64?_iff {s : String} {n : Int} : signed64? s = some n ↔
    WritesInteger s.toList n ∧ -2 ^ 63 ≤ n ∧ n < 2 ^ 63 := by
  have hmin : Int64.minValue.toInt = -9223372036854775808 := by decide
  have hmax : Int64.maxValue.toInt = 9223372036854775807 := by decide
  have hrange : (decide (Int64.minValue.toInt ≤ n) && decide (n ≤ Int64.maxValue.toInt)) = true
      ↔ -2 ^ 63 ≤ n ∧ n < 2 ^ 63 := by
    rw [Bool.and_eq_true, decide_eq_true_eq, decide_eq_true_eq, hmin, hmax]
    omega
  unfold signed64?
  rw [Option.filter_eq_some_iff, integer?_iff_writesInteger, hrange]

/-! ## Numbers as they are shown -/

theorem isDigit_of_mem_repr {c : Char} {n : Nat} (h : c ∈ n.repr.toList) : isDigit c = true := by
  rw [Nat.toList_repr] at h
  have hc := Nat.isDigit_of_mem_toDigits (by decide) (by decide) h
  simpa [Char.isDigit, isDigit, Char.le_def] using hc

/-- The digits that show a number write it. -/
theorem writes_repr (n : Nat) : Writes n.repr.toList n := by
  have hvalue : decimalValue n.repr.toList = n := by
    rw [Nat.toList_repr]
    exact Nat.ofDigitChars_ten_toDigits
  rw [← natural?_iff_writes, natural?_eq_some]
  refine ⟨?_, fun c hc => isDigit_of_mem_repr hc, hvalue⟩
  rw [Nat.toList_repr]
  exact Nat.toDigits_ne_nil

/-- The digits that show a number do not begin with a needless zero. -/
theorem head?_repr_ne_zero {n : Nat} (h : 0 < n) : n.repr.toList.head? ≠ some '0' := by
  rw [Nat.toList_repr]
  induction n using Nat.strongRecOn with
  | ind n ih =>
    by_cases hn : n < 10
    · have hdigit : ∀ d : Fin 10, 0 < d.val → Nat.digitChar d ≠ '0' := by decide
      rw [Nat.toDigits_of_lt_base hn]
      exact fun hhead => hdigit ⟨n, hn⟩ h (Option.some.inj hhead)
    · have hfirst := ih (n / 10) (by omega) (by omega)
      obtain ⟨c, tail, hcons⟩ : ∃ c tail, Nat.toDigits 10 (n / 10) = c :: tail :=
        List.exists_cons_of_ne_nil Nat.toDigits_ne_nil
      rw [hcons] at hfirst
      rw [Nat.toDigits_of_base_le (by decide) (by omega), hcons]
      exact hfirst

theorem signed64?_repr {n : Nat} (h : n < 2 ^ 63) : signed64? n.repr = some (n : Int) :=
  signed64?_iff.mpr ⟨.bare (writes_repr n), by omega, by omega⟩

/-! ## The characters of a number -/

/-- The characters that numbers are written in. -/
def numberChars : List Char := "0123456789+-.eE".toList

theorem digit_mem_numberChars {c : Char} (h : isDigit c = true) : c ∈ numberChars := by
  obtain ⟨d, rfl⟩ := exists_digitChar h
  revert d
  decide

theorem digits_numberChars {cs : List Char} (h : ∀ c ∈ cs, isDigit c = true) :
    cs ⊆ numberChars := fun _ hc => digit_mem_numberChars (h _ hc)

theorem natural?_numberChars {cs : List Char} {n : Nat} (h : natural? cs = some n) :
    cs ⊆ numberChars := digits_numberChars (natural?_eq_some.mp h).2.1

theorem integer?_numberChars {cs : List Char} {n : Int} (h : integer? cs = some n) :
    cs ⊆ numberChars := by
  unfold integer? at h
  split at h
  case h_1 =>
    obtain ⟨m, hm, _⟩ := Option.map_eq_some_iff.mp h
    exact List.cons_subset.mpr ⟨by decide, natural?_numberChars hm⟩
  case h_2 =>
    obtain ⟨_, hread, _⟩ := Option.map_eq_some_iff.mp h
    obtain ⟨m, hm, _⟩ := Option.bind_eq_some_iff.mp hread
    exact List.cons_subset.mpr ⟨by decide, natural?_numberChars hm⟩
  case h_3 =>
    obtain ⟨m, hm, _⟩ := Option.map_eq_some_iff.mp h
    exact natural?_numberChars hm

namespace Decimal

theorem exponent?_numberChars {cs : List Char} {e : Int} (h : exponent? cs = some e) :
    cs ⊆ numberChars := by
  cases cs with
  | nil => exact List.nil_subset _
  | cons c rest =>
    unfold exponent? at h
    obtain ⟨hc, hrest⟩ := Option.ite_none_right_eq_some.mp h
    rw [Bool.or_eq_true, beq_iff_eq, beq_iff_eq] at hc
    refine List.cons_subset.mpr ⟨?_, integer?_numberChars hrest⟩
    rcases hc with rfl | rfl <;> decide

theorem takeWhile_numberChars (cs : List Char) : cs.takeWhile isDigit ⊆ numberChars :=
  digits_numberChars (List.all_eq_true.mp List.all_takeWhile)

/-- What follows the digits in front: a point and more digits, or nothing of the two. -/
theorem magnitude?_numberChars {cs : List Char} {d : Decimal} (h : magnitude? cs = some d) :
    cs ≠ [] ∧ cs ⊆ numberChars := by
  refine ⟨?_, ?_⟩
  · rintro rfl
    cases h
  · unfold magnitude? at h
    rw [← List.takeWhile_append_dropWhile (p := isDigit) (l := cs)]
    refine List.append_subset.mpr ⟨takeWhile_numberChars cs, ?_⟩
    generalize cs.dropWhile isDigit = tail at h
    simp only at h
    split at h
    case h_1 rest =>
      obtain ⟨_, htail⟩ := Option.ite_none_left_eq_some.mp h
      obtain ⟨e, he, _⟩ := Option.map_eq_some_iff.mp htail
      refine List.cons_subset.mpr ⟨by decide, ?_⟩
      rw [← List.takeWhile_append_dropWhile (p := isDigit) (l := rest)]
      exact List.append_subset.mpr ⟨takeWhile_numberChars rest, exponent?_numberChars he⟩
    case h_2 =>
      obtain ⟨_, htail⟩ := Option.ite_none_left_eq_some.mp h
      obtain ⟨e, he, _⟩ := Option.map_eq_some_iff.mp htail
      exact exponent?_numberChars he

theorem read?_numberChars {cs : List Char} {d : Decimal} (h : read? cs = some d) :
    cs ≠ [] ∧ cs ⊆ numberChars := by
  unfold read? at h
  split at h
  case h_1 =>
    exact ⟨List.cons_ne_nil _ _, List.cons_subset.mpr ⟨by decide, (magnitude?_numberChars h).2⟩⟩
  case h_2 =>
    exact ⟨List.cons_ne_nil _ _, List.cons_subset.mpr ⟨by decide, (magnitude?_numberChars h).2⟩⟩
  case h_3 => exact magnitude?_numberChars h

end Decimal

theorem isFiniteNumber_numberChars {s : String} (h : isFiniteNumber s = true) :
    s.toList ≠ [] ∧ s.toList ⊆ numberChars := by
  obtain ⟨d, hd, _⟩ := (Option.any_eq_true _ _).mp h
  exact Decimal.read?_numberChars hd

end ShopQuery.Text
