-- Numbers in a query. A value stands bare in a query if it is a fraction with a finite number of
-- double precision nearest to it. That is so exactly below a bound, and the reader compares a
-- fraction with the bound without writing it out, however long its exponent is.
import Mathlib.Tactic.Linarith
import ShopQuery.Proofs.Fractions
import ShopQuery.Proofs.RequestMeaning
import ShopQuery.Query.Literal

namespace ShopQuery.Text

/-! ## The size of digits -/

theorem digitValue_lt {c : Char} (h : isDigit c = true) : digitValue c < 10 := by
  obtain ⟨d, rfl⟩ := exists_digitChar h
  rw [digitValue_digitChar]
  exact d.isLt

theorem decimalValue_lt {cs : List Char} (h : ∀ c ∈ cs, isDigit c = true) :
    decimalValue cs < 10 ^ cs.length := by
  induction cs using List.reverseRecOn with
  | nil => simp [decimalValue]
  | append_singleton cs c ih =>
    rw [List.forall_mem_append, List.forall_mem_singleton] at h
    have hfront := ih h.1
    have hlast := digitValue_lt h.2
    rw [decimalValue_concat, List.length_append, List.length_singleton, pow_succ]
    omega

theorem pow_le_decimalValue {c : Char} (cs : List Char) (hc : isDigit c = true) (h0 : c ≠ '0') :
    10 ^ cs.length ≤ decimalValue (c :: cs) := by
  have hpos : 1 ≤ decimalValue [c] := by
    obtain ⟨d, rfl⟩ := exists_digitChar hc
    rw [decimalValue_digit]
    have hne : d ≠ 0 := by
      rintro rfl
      exact h0 rfl
    omega
  have hsplit := decimalValue_append [c] cs
  rw [List.singleton_append] at hsplit
  calc 10 ^ cs.length ≤ decimalValue [c] * 10 ^ cs.length := Nat.le_mul_of_pos_left _ hpos
    _ ≤ decimalValue (c :: cs) := by omega

theorem decimalValue_dropZeros (cs : List Char) :
    decimalValue (cs.dropWhile (· == '0')) = decimalValue cs := by
  induction cs with
  | nil => rfl
  | cons c cs ih =>
    rw [List.dropWhile_cons]
    split
    case isTrue h =>
      obtain rfl := beq_iff_eq.mp h
      have hsplit := decimalValue_append ['0'] cs
      have hzero : decimalValue ['0'] = 0 := by decide
      rw [hzero, List.singleton_append] at hsplit
      omega
    case isFalse => rfl

namespace Decimal

/-! ## The bound -/

theorem overflowBound_eq : (overflowBound : ℚ) = 2 ^ 1024 - 2 ^ 970 := by
  have h : overflowBound + 2 ^ 970 = 2 ^ 1024 := by decide +kernel
  have hcast := congrArg (Nat.cast (R := ℚ)) h
  rw [Nat.cast_add, Nat.cast_pow, Nat.cast_pow, Nat.cast_ofNat] at hcast
  exact eq_sub_of_add_eq hcast

theorem pow_308_le_overflowBound : (10 : ℚ) ^ (308 : Int) ≤ overflowBound := by
  have h : 10 ^ 308 ≤ overflowBound := by decide +kernel
  have hcast := (Nat.cast_le (α := ℚ)).mpr h
  rwa [Nat.cast_pow, Nat.cast_ofNat, ← zpow_natCast, Nat.cast_ofNat] at hcast

theorem overflowBound_le_pow_309 : (overflowBound : ℚ) ≤ 10 ^ (309 : Int) := by
  have h : overflowBound ≤ 10 ^ 309 := by decide +kernel
  have hcast := (Nat.cast_le (α := ℚ)).mpr h
  rwa [Nat.cast_pow, Nat.cast_ofNat, ← zpow_natCast, Nat.cast_ofNat] at hcast

section Size

variable {cs : List Char} (e : Int)

/-- Digits lie below the power of ten with one zero more than there are digits. -/
theorem scaled_lt (h : ∀ c ∈ cs, isDigit c = true) :
    (decimalValue cs : ℚ) * 10 ^ e < 10 ^ (cs.length + e) := by
  have hlt := (Nat.cast_lt (α := ℚ)).mpr (decimalValue_lt h)
  rw [Nat.cast_pow, Nat.cast_ofNat] at hlt
  rw [zpow_add₀ (by norm_num), zpow_natCast]
  exact mul_lt_mul_of_pos_right hlt (by positivity)

/-- Without a zero in front they do not lie below the power before it. -/
theorem le_scaled {c : Char} (rest : List Char) (hc : isDigit c = true) (h0 : c ≠ '0') :
    (10 : ℚ) ^ ((c :: rest).length + e - 1) ≤ decimalValue (c :: rest) * 10 ^ e := by
  have hle := (Nat.cast_le (α := ℚ)).mpr (pow_le_decimalValue rest hc h0)
  rw [Nat.cast_pow, Nat.cast_ofNat] at hle
  have hexponent : ((c :: rest).length + e - 1 : Int) = rest.length + e := by
    rw [List.length_cons]
    omega
  rw [hexponent, zpow_add₀ (by norm_num), zpow_natCast]
  exact mul_le_mul_of_nonneg_right hle (by positivity)

/-- A negative exponent is compared on the other side. -/
theorem scaled_lt_iff (n b : Nat) : (n : ℚ) * 10 ^ e < b ↔
    n * Nat.pow 10 e.toNat < b * Nat.pow 10 (-e).toNat := by
  have hten : (0 : ℚ) < 10 ^ (-e).toNat := by positivity
  have hpow : (10 : ℚ) ^ e * 10 ^ (-e).toNat = 10 ^ e.toNat := by
    rw [← zpow_natCast, ← zpow_natCast, ← zpow_add₀ (by norm_num)]
    congr 1
    omega
  rw [← mul_lt_mul_iff_left₀ hten, mul_assoc, hpow, ← Nat.cast_lt (α := ℚ)]
  simp

end Size

/-- The short cuts of the comparison leave its answer as it is. -/
theorem isFinite_iff {d : Decimal} (hd : ∀ c ∈ d.digits, isDigit c = true) :
    d.isFinite = true ↔ d.value < overflowBound := by
  have hvalue : d.value = decimalValue (d.digits.dropWhile (· == '0')) * 10 ^ d.exponent := by
    rw [decimalValue_dropZeros]
    rfl
  have hdigits : ∀ c ∈ d.digits.dropWhile (· == '0'), isDigit c = true :=
    fun c hc => hd c (List.dropWhile_subset _ hc)
  have hfirst := List.head?_dropWhile_not (· == '0') d.digits
  unfold isFinite
  rw [hvalue]
  generalize d.digits.dropWhile (· == '0') = significant at hdigits hfirst
  cases significant with
  | nil =>
    have hpos : (0 : ℚ) < overflowBound := lt_of_lt_of_le (by positivity) pow_308_le_overflowBound
    have hzero : (decimalValue [] : ℚ) = 0 := Nat.cast_zero
    rw [hzero, zero_mul]
    exact iff_of_true rfl hpos
  | cons c rest =>
    have hc : c ≠ '0' := by simpa using hfirst
    have hlow := le_scaled d.exponent rest (hdigits c List.mem_cons_self) hc
    have hhigh := scaled_lt d.exponent hdigits
    simp only [List.isEmpty_cons, Bool.false_or, decide_eq_true_eq]
    split
    case isTrue hsmall =>
      have hpow := zpow_le_zpow_right₀ (a := (10 : ℚ)) (by norm_num) hsmall
      simp only [true_iff]
      exact lt_of_lt_of_le hhigh (hpow.trans pow_308_le_overflowBound)
    case isFalse hsmall =>
      split
      case isTrue hlarge =>
        have hpow := zpow_le_zpow_right₀ (a := (10 : ℚ)) (by norm_num) (Int.le_sub_one_of_lt hlarge)
        simp only [Bool.false_eq_true, false_iff, not_lt]
        exact overflowBound_le_pow_309.trans (hpow.trans hlow)
      case isFalse => rw [decide_eq_true_eq, scaled_lt_iff]

end Decimal

/-! ## Double precision -/

/-- The finite numbers of double precision: whole numbers of 53 binary digits, times a power of
two. -/
def IsDouble (d : ℚ) : Prop :=
  ∃ m e : Int, |m| < 2 ^ 53 ∧ -1074 ≤ e ∧ e ≤ 971 ∧ d = m * 2 ^ e

/-- Of the finite numbers and the two that would come next, `2 ^ 1024` and its opposite, a finite
one is nearest. The two next ones stand for the infinities, and they win a tie since they are
even. -/
def RoundsToDouble (x : ℚ) : Prop := ∃ d, IsDouble d ∧ |x - d| < 2 ^ 1024 - |x|

/-- The largest finite number: the next one, less the step between them. -/
theorem largest_double : ((2 : ℚ) ^ 53 - 1) * 2 ^ 971 = 2 ^ 1024 - 2 ^ 971 := by
  rw [sub_mul, one_mul, ← pow_add]

theorem isDouble_largest : IsDouble (2 ^ 1024 - 2 ^ 971) ∧ IsDouble (-(2 ^ 1024 - 2 ^ 971)) := by
  have hpow : (2 : ℚ) ^ 971 = 2 ^ (971 : Int) := by rw [← zpow_natCast, Nat.cast_ofNat]
  rw [← largest_double, hpow]
  refine ⟨⟨2 ^ 53 - 1, 971, by norm_num, by norm_num, le_rfl, by norm_num⟩,
    ⟨-(2 ^ 53 - 1), 971, by norm_num, by norm_num, le_rfl, by norm_num⟩⟩

theorem abs_le_of_isDouble {d : ℚ} (h : IsDouble d) : |d| ≤ 2 ^ 1024 - 2 ^ 971 := by
  obtain ⟨m, e, hm, _, he, rfl⟩ := h
  have hdigits : |(m : ℚ)| ≤ 2 ^ 53 - 1 := by
    have hle : |m| ≤ 2 ^ 53 - 1 := by omega
    exact_mod_cast hle
  have hpow : (2 : ℚ) ^ e ≤ 2 ^ 971 := by
    have hle := zpow_le_zpow_right₀ (a := (2 : ℚ)) (by norm_num) he
    rwa [← Nat.cast_ofNat (R := Int), zpow_natCast] at hle
  rw [← largest_double, abs_mul, abs_of_pos (a := (2 : ℚ) ^ e) (by positivity)]
  exact mul_le_mul hdigits hpow (by positivity) (by norm_num)

/-- A number rounds to a finite one below the middle between the largest and the next one. -/
theorem roundsToDouble_iff (x : ℚ) : RoundsToDouble x ↔ |x| < 2 ^ 1024 - 2 ^ 970 := by
  have hstep : (2 : ℚ) ^ 971 = 2 * 2 ^ 970 := by rw [pow_succ, mul_comm]
  have hpos : (0 : ℚ) < 2 ^ 970 := by positivity
  have hlargest := isDouble_largest
  have hle := @abs_le_of_isDouble
  unfold RoundsToDouble
  rw [hstep] at hlargest hle
  -- The powers are only compared, never written out.
  generalize (2 : ℚ) ^ 1024 = next at *
  generalize (2 : ℚ) ^ 970 = half at *
  constructor
  · rintro ⟨d, hd, hnear⟩
    have hbound := hle hd
    have htriangle := abs_sub_abs_le_abs_sub x d
    linarith
  · intro hx
    rcases abs_cases x with ⟨habs, _⟩ | ⟨habs, _⟩
    · refine ⟨_, hlargest.1, ?_⟩
      rw [abs_lt]
      constructor <;> linarith only [hpos, hx, habs]
    · refine ⟨_, hlargest.2, ?_⟩
      rw [abs_lt]
      constructor <;> linarith only [hpos, hx, habs]

theorem isFiniteNumber_iff {s : String} : isFiniteNumber s = true ↔
    ∃ x, WritesFraction s.toList x ∧ |x| < 2 ^ 1024 - 2 ^ 970 := by
  unfold isFiniteNumber
  rw [Option.any_eq_true, ← Decimal.overflowBound_eq]
  constructor
  · rintro ⟨d, hd, hfinite⟩
    obtain ⟨⟨x, hx⟩, hdigits⟩ := Decimal.writes_of_read? hd
    obtain ⟨_, hd', hvalue⟩ := Decimal.read?_of_writes hx
    obtain rfl := Option.some.inj (hd.symm.trans hd')
    rw [Decimal.isFinite_iff hdigits, hvalue] at hfinite
    exact ⟨x, hx, hfinite⟩
  · rintro ⟨x, hx, hbound⟩
    obtain ⟨d, hd, hvalue⟩ := Decimal.read?_of_writes hx
    rw [← hvalue, ← Decimal.isFinite_iff (Decimal.writes_of_read? hd).2] at hbound
    exact ⟨d, hd, hbound⟩

end ShopQuery.Text

namespace ShopQuery

namespace Literal

theorem ofText_eq_number_iff {s : String} :
    ofText s = number (Text.trim s) ↔ Text.isFiniteNumber (Text.trim s) = true := by
  unfold ofText
  split
  case isTrue h => simp [h]
  case isFalse h => simp [h]

theorem ofText_eq_text_iff {s : String} :
    ofText s = text (Text.stripped s) ↔ ¬ Text.isFiniteNumber (Text.trim s) = true := by
  rw [Text.stripped_eq_quotable]
  unfold ofText
  split
  case isTrue h => simp [h]
  case isFalse h => simp [h]

end Literal

/-! ## The law -/

/-- A value is a number if and only if its text, without the blanks around it, writes a fraction
below the bound; then the query holds it as it is written. Every other value is a text, blanks
included, without quotes and backslashes. A text writes one number at most, and the bound is where
double precision begins to round to infinity. -/
theorem a_value_is_a_number_if_a_double_is_nearest (s : String) :
    (Literal.ofText s = .number (Text.trim s) ↔
      ∃ x, Text.WritesFraction (Text.trim s).toList x ∧ |x| < 2 ^ 1024 - 2 ^ 970)
    ∧ (Literal.ofText s = .text (Text.stripped s) ↔
      ∀ x, Text.WritesFraction (Text.trim s).toList x → 2 ^ 1024 - 2 ^ 970 ≤ |x|)
    ∧ (∀ x y, Text.WritesFraction (Text.trim s).toList x →
      Text.WritesFraction (Text.trim s).toList y → x = y)
    ∧ ∀ x, Text.RoundsToDouble x ↔ |x| < 2 ^ 1024 - 2 ^ 970 := by
  refine ⟨?_, ?_, fun x y => Text.writesFraction_unique, Text.roundsToDouble_iff⟩
  · rw [Literal.ofText_eq_number_iff, Text.isFiniteNumber_iff]
  · rw [Literal.ofText_eq_text_iff, Text.isFiniteNumber_iff]
    simp only [not_exists, not_and, not_lt]

/-- The first power of ten above the bound is a text, with the blank in front of it. -/
theorem the_next_power_of_ten_is_a_text :
    Literal.ofText " 1e309" = .text " 1e309"
      ∧ ∃ x, Text.WritesFraction "1e309".toList x ∧ 2 ^ 1024 - 2 ^ 970 ≤ |x| := by
  have htext : Literal.ofText " 1e309" = .text (Text.stripped " 1e309") := by decide +kernel
  have htrim : (Text.trim " 1e309").toList = "1e309".toList := by decide
  have hwrites : Text.WritesFraction "1e309".toList _ :=
    .bare (.scaled (.whole (.digit 1)) (.small (.bare (.more 9 (.more 0 (.digit 3))))))
  refine ⟨htext.trans (by decide), _, hwrites, ?_⟩
  exact (a_value_is_a_number_if_a_double_is_nearest " 1e309").2.1.mp htext _ (htrim ▸ hwrites)

/-- The last digit decides on which side of the bound the two values lie. -/
example : Literal.ofText "17976931348623158e292" = .number "17976931348623158e292" := by
  decide +kernel

example : Literal.ofText "17976931348623159e292" = .text "17976931348623159e292" := by
  decide +kernel

end ShopQuery
