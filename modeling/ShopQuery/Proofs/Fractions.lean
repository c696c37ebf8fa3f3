-- Fractions as they are written. A grammar says which characters write a fraction and which number
-- that is, and the reader accepts exactly what it derives.
import Mathlib.Algebra.Order.Field.Power
import Mathlib.Tactic.FieldSimp
import Mathlib.Tactic.Positivity
import Mathlib.Tactic.Ring
import ShopQuery.Proofs.Numerals

namespace ShopQuery.Text

/-! ## The grammar -/

/-- Digits, with at most one point in front of them, among them or behind them. -/
inductive WritesPointed : List Char → ℚ → Prop
  | whole {cs : List Char} {n : Nat} : Writes cs n → WritesPointed cs n
  | point {cs : List Char} {n : Nat} : Writes cs n → WritesPointed (cs ++ ['.']) n
  | both {cs ds : List Char} {n m : Nat} : Writes cs n → Writes ds m →
    WritesPointed (cs ++ '.' :: ds) (n + m / 10 ^ ds.length)
  | parts {ds : List Char} {m : Nat} : Writes ds m → WritesPointed ('.' :: ds) (m / 10 ^ ds.length)

/-- Nothing, or the letter `e` in either case and a whole number. -/
inductive WritesExponent : List Char → Int → Prop
  | none : WritesExponent [] 0
  | small {cs : List Char} {e : Int} : WritesInteger cs e → WritesExponent ('e' :: cs) e
  | capital {cs : List Char} {e : Int} : WritesInteger cs e → WritesExponent ('E' :: cs) e

inductive WritesMagnitude : List Char → ℚ → Prop
  | scaled {front back : List Char} {x : ℚ} {e : Int} : WritesPointed front x →
    WritesExponent back e → WritesMagnitude (front ++ back) (x * 10 ^ e)

/-- A fraction with a sign in front or none, and the number that it writes. -/
inductive WritesFraction : List Char → ℚ → Prop
  | bare {cs : List Char} {x : ℚ} : WritesMagnitude cs x → WritesFraction cs x
  | plus {cs : List Char} {x : ℚ} : WritesMagnitude cs x → WritesFraction ('+' :: cs) x
  | minus {cs : List Char} {x : ℚ} : WritesMagnitude cs x → WritesFraction ('-' :: cs) (-x)

/-! ## The value of digits -/

theorem decimalValue_append (xs ys : List Char) :
    decimalValue (xs ++ ys) = decimalValue xs * 10 ^ ys.length + decimalValue ys := by
  induction ys using List.reverseRecOn with
  | nil => simp [decimalValue]
  | append_singleton ys c ih =>
    rw [← List.append_assoc, decimalValue_concat, ih, decimalValue_concat]
    simp only [List.length_append, List.length_singleton]
    ring

/-! ## The parts of a fraction -/

theorem writesPointed_of_digits {whole fraction : List Char}
    (hwhole : ∀ c ∈ whole, isDigit c = true)
    (hfraction : ∀ c ∈ fraction, isDigit c = true) (hne : whole ++ fraction ≠ []) :
    WritesPointed (whole ++ '.' :: fraction)
      (decimalValue whole + decimalValue fraction / 10 ^ fraction.length) := by
  by_cases hw : whole = []
  · subst hw
    rw [List.nil_append] at hne
    simpa [decimalValue] using WritesPointed.parts (writes_of_digits hne hfraction)
  · by_cases hf : fraction = []
    · subst hf
      simpa [decimalValue] using WritesPointed.point (writes_of_digits hw hwhole)
    · exact .both (writes_of_digits hw hwhole) (writes_of_digits hf hfraction)

/-- An exponent cannot be taken for more digits, or for a point. -/
theorem WritesExponent.tail {cs : List Char} {e : Int} (h : WritesExponent cs e) :
    cs.takeWhile isDigit = [] ∧ ∀ rest, cs ≠ '.' :: rest := by
  cases h with
  | none => exact ⟨rfl, nofun⟩
  | small => exact ⟨rfl, by simp⟩
  | capital => exact ⟨rfl, by simp⟩

/-! ## What the reader accepts -/

/-- The digits in front of a list, and what follows them. -/
theorem exists_digits (cs : List Char) : ∃ xs tail, cs = xs ++ tail
    ∧ (∀ c ∈ xs, isDigit c = true) ∧ tail.takeWhile isDigit = [] := by
  refine ⟨cs.takeWhile isDigit, cs.dropWhile isDigit, ?_, ?_, ?_⟩
  · exact (List.takeWhile_append_dropWhile).symm
  · exact List.all_eq_true.mp List.all_takeWhile
  · have hfirst := List.head?_dropWhile_not isDigit cs
    cases htail : cs.dropWhile isDigit with
    | nil => rfl
    | cons c tail =>
      rw [htail] at hfirst
      exact List.takeWhile_cons_of_neg (by simpa using hfirst)

namespace Decimal

/-- The number that a decimal fraction stands for. -/
def value (d : Decimal) : ℚ := decimalValue d.digits * 10 ^ d.exponent

theorem exponent?_iff {cs : List Char} {e : Int} : exponent? cs = some e ↔ WritesExponent cs e := by
  constructor
  · intro h
    cases cs with
    | nil =>
      cases h
      exact .none
    | cons c cs =>
      unfold exponent? at h
      obtain ⟨hc, hcs⟩ := Option.ite_none_right_eq_some.mp h
      rw [integer?_iff_writesInteger] at hcs
      rw [Bool.or_eq_true, beq_iff_eq, beq_iff_eq] at hc
      rcases hc with rfl | rfl
      · exact .small hcs
      · exact .capital hcs
  · intro h
    cases h with
    | none => rfl
    | small hcs => exact integer?_iff_writesInteger.mpr hcs
    | capital hcs => exact integer?_iff_writesInteger.mpr hcs

section Reader

variable {whole fraction tail : List Char}

theorem dropWhile_tail (h : tail.takeWhile isDigit = []) : tail.dropWhile isDigit = tail := by
  have hsplit := List.takeWhile_append_dropWhile (p := isDigit) (l := tail)
  rwa [h, List.nil_append] at hsplit

theorem magnitude?_whole (hwhole : ∀ c ∈ whole, isDigit c = true)
    (htail : tail.takeWhile isDigit = []) (hpoint : ∀ rest, tail ≠ '.' :: rest) :
    magnitude? (whole ++ tail) =
      if whole = [] then none else (exponent? tail).map fun e => ⟨whole, e⟩ := by
  unfold magnitude?
  rw [List.takeWhile_append_of_pos hwhole, List.dropWhile_append_of_pos hwhole, htail,
    dropWhile_tail htail, List.append_nil]
  simp

theorem magnitude?_pointed (hwhole : ∀ c ∈ whole, isDigit c = true)
    (hfraction : ∀ c ∈ fraction, isDigit c = true) (htail : tail.takeWhile isDigit = []) :
    magnitude? (whole ++ '.' :: (fraction ++ tail)) =
      if whole ++ fraction = [] then none
      else (exponent? tail).map fun e => ⟨whole ++ fraction, e - fraction.length⟩ := by
  have hpoint : ('.' :: (fraction ++ tail)).takeWhile isDigit = [] := rfl
  unfold magnitude?
  rw [List.takeWhile_append_of_pos hwhole, List.dropWhile_append_of_pos hwhole, hpoint,
    dropWhile_tail hpoint, List.append_nil]
  simp only [List.takeWhile_append_of_pos hfraction, List.dropWhile_append_of_pos hfraction, htail,
    dropWhile_tail htail, List.append_nil]
  simp

end Reader

/-- The value of digits on both sides of a point. -/
theorem value_pointed (whole fraction : List Char) (e : Int) :
    value ⟨whole ++ fraction, e - fraction.length⟩
      = (decimalValue whole + decimalValue fraction / 10 ^ fraction.length) * 10 ^ e := by
  have hten : (10 : ℚ) ^ fraction.length ≠ 0 := by positivity
  unfold value
  rw [decimalValue_append, zpow_sub₀ (by norm_num), zpow_natCast]
  push_cast
  field_simp

/-- The reader accepts only what the grammar derives. -/
theorem writes_of_magnitude? {cs : List Char} {d : Decimal} (h : magnitude? cs = some d) :
    WritesMagnitude cs d.value ∧ ∀ c ∈ d.digits, isDigit c = true := by
  obtain ⟨whole, tail, rfl, hwhole, htail⟩ := exists_digits cs
  by_cases hpoint : ∃ rest, tail = '.' :: rest
  · obtain ⟨rest, rfl⟩ := hpoint
    obtain ⟨fraction, tail, rfl, hfraction, htail⟩ := exists_digits rest
    rw [magnitude?_pointed hwhole hfraction htail] at h
    obtain ⟨hne, hread⟩ := Option.ite_none_left_eq_some.mp h
    obtain ⟨e, he, rfl⟩ := Option.map_eq_some_iff.mp hread
    rw [exponent?_iff] at he
    refine ⟨?_, List.forall_mem_append.mpr ⟨hwhole, hfraction⟩⟩
    rw [value_pointed]
    simpa using WritesMagnitude.scaled (writesPointed_of_digits hwhole hfraction hne) he
  · rw [not_exists] at hpoint
    rw [magnitude?_whole hwhole htail hpoint] at h
    obtain ⟨hne, hread⟩ := Option.ite_none_left_eq_some.mp h
    obtain ⟨e, he, rfl⟩ := Option.map_eq_some_iff.mp hread
    rw [exponent?_iff] at he
    exact ⟨.scaled (.whole (writes_of_digits hne hwhole)) he, hwhole⟩

/-- The reader accepts all that the grammar derives. -/
theorem magnitude?_of_writes {cs : List Char} {x : ℚ} (h : WritesMagnitude cs x) :
    ∃ d, magnitude? cs = some d ∧ d.value = x := by
  obtain ⟨hfront, hback⟩ := h
  rename_i front back x e
  obtain ⟨htail, hpoint⟩ := WritesExponent.tail hback
  have hread := exponent?_iff.mpr hback
  have hnone : ∀ c ∈ ([] : List Char), isDigit c = true := List.forall_mem_nil _
  cases hfront with
  | whole hcs =>
    obtain ⟨hne, hdigits, rfl⟩ := digits_of_writes hcs
    rw [magnitude?_whole hdigits htail hpoint, if_neg hne, hread]
    exact ⟨_, rfl, rfl⟩
  | @point cs n hcs =>
    obtain ⟨hne, hdigits, rfl⟩ := digits_of_writes hcs
    have hcut := magnitude?_pointed hdigits hnone htail
    rw [List.append_nil, if_neg hne, hread] at hcut
    refine ⟨_, by simpa using hcut, ?_⟩
    simp [value]
  | @both cs ds n m hcs hds =>
    obtain ⟨hne, hdigits, rfl⟩ := digits_of_writes hcs
    obtain ⟨_, hmore, rfl⟩ := digits_of_writes hds
    have hcut := magnitude?_pointed hdigits hmore htail
    rw [if_neg (by simp [hne]), hread] at hcut
    exact ⟨_, by simpa using hcut, value_pointed cs ds e⟩
  | @parts ds m hds =>
    obtain ⟨hne, hmore, rfl⟩ := digits_of_writes hds
    have hcut := magnitude?_pointed hnone hmore htail
    rw [if_neg (by simpa using hne), hread] at hcut
    refine ⟨_, by simpa using hcut, ?_⟩
    simpa [decimalValue] using value_pointed [] ds e

theorem value_nonneg (d : Decimal) : 0 ≤ d.value := by
  unfold value
  positivity

end Decimal

theorem not_writesMagnitude_sign {c : Char} (hc : c = '+' ∨ c = '-') (cs : List Char) (x : ℚ) :
    ¬ WritesMagnitude (c :: cs) x := by
  intro h
  obtain ⟨d, hd, _⟩ := Decimal.magnitude?_of_writes h
  rcases hc with rfl | rfl <;> cases hd

theorem writesMagnitude_unique {cs : List Char} {x y : ℚ} (hx : WritesMagnitude cs x)
    (hy : WritesMagnitude cs y) : x = y := by
  obtain ⟨d, hd, rfl⟩ := Decimal.magnitude?_of_writes hx
  obtain ⟨e, he, rfl⟩ := Decimal.magnitude?_of_writes hy
  rw [Option.some.inj (hd.symm.trans he)]

/-- No text writes two numbers. -/
theorem writesFraction_unique {cs : List Char} {x y : ℚ} (hx : WritesFraction cs x)
    (hy : WritesFraction cs y) : x = y := by
  cases hx with
  | bare hx =>
    cases hy with
    | bare hy => exact writesMagnitude_unique hx hy
    | plus => exact absurd hx (not_writesMagnitude_sign (Or.inl rfl) _ _)
    | minus => exact absurd hx (not_writesMagnitude_sign (Or.inr rfl) _ _)
  | plus hx =>
    cases hy with
    | bare hy => exact absurd hy (not_writesMagnitude_sign (Or.inl rfl) _ _)
    | plus hy => exact writesMagnitude_unique hx hy
  | minus hx =>
    cases hy with
    | bare hy => exact absurd hy (not_writesMagnitude_sign (Or.inr rfl) _ _)
    | minus hy => rw [writesMagnitude_unique hx hy]

namespace Decimal

/-- A text is read as the magnitude of the number that it writes. -/
theorem read?_of_writes {cs : List Char} {x : ℚ} (h : WritesFraction cs x) :
    ∃ d, read? cs = some d ∧ d.value = |x| := by
  cases h with
  | bare hcs =>
    obtain ⟨d, hd, hvalue⟩ := magnitude?_of_writes hcs
    refine ⟨d, ?_, ?_⟩
    · unfold read?
      split
      case h_1 rest => exact absurd hcs (not_writesMagnitude_sign (Or.inl rfl) rest x)
      case h_2 rest => exact absurd hcs (not_writesMagnitude_sign (Or.inr rfl) rest x)
      case h_3 => exact hd
    · rw [← hvalue, abs_of_nonneg d.value_nonneg]
  | plus hcs =>
    obtain ⟨d, hd, hvalue⟩ := magnitude?_of_writes hcs
    exact ⟨d, hd, by rw [← hvalue, abs_of_nonneg d.value_nonneg]⟩
  | minus hcs =>
    obtain ⟨d, hd, hvalue⟩ := magnitude?_of_writes hcs
    exact ⟨d, hd, by rw [← hvalue, abs_neg, abs_of_nonneg d.value_nonneg]⟩

theorem writes_of_read? {cs : List Char} {d : Decimal} (h : read? cs = some d) :
    (∃ x, WritesFraction cs x) ∧ ∀ c ∈ d.digits, isDigit c = true := by
  unfold read? at h
  split at h
  all_goals obtain ⟨hwrites, hdigits⟩ := writes_of_magnitude? h
  case h_1 => exact ⟨⟨_, .plus hwrites⟩, hdigits⟩
  case h_2 => exact ⟨⟨_, .minus hwrites⟩, hdigits⟩
  case h_3 => exact ⟨⟨_, .bare hwrites⟩, hdigits⟩

end Decimal

end ShopQuery.Text
