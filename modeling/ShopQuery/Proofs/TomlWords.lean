-- How the values that are words may be written: truth values, whole numbers of four bases,
-- fractions, dates and times. A word that is written so is read as the value.
import ShopQuery.Proofs.Numerals
import ShopQuery.Toml.Statement

namespace ShopQuery.Toml

open Text (isDigit hexValue? natural?)

/-! ## Numbers -/

/-- Digits, with an underscore between two of them or not. -/
inductive SpellsDigits (isDigit : Char → Bool) : List Char → List Char → Prop
  | last {d : Char} (h : isDigit d = true) : SpellsDigits isDigit [d] [d]
  | next {d : Char} {ds cs : List Char} (h : isDigit d = true)
      (hrest : SpellsDigits isDigit ds cs) : SpellsDigits isDigit (d :: ds) (d :: cs)
  | spaced {d : Char} {ds cs : List Char} (h : isDigit d = true)
      (hrest : SpellsDigits isDigit ds cs) : SpellsDigits isDigit (d :: ds) (d :: '_' :: cs)

/-- Decimal digits, the first of them no needless zero. -/
structure SpellsWhole (ds cs : List Char) : Prop where
  digits : SpellsDigits isDigit ds cs
  zero : ∀ tail, ds = '0' :: tail → tail = []

/-- Decimal digits that write a number. -/
def SpellsNatural (n : Nat) (cs : List Char) : Prop := ∃ ds, SpellsWhole ds cs ∧ Text.Writes ds n

/-- A number with a sign in front or none, or in a base other than ten. -/
inductive SpellsInteger : Int → List Char → Prop
  | bare {n : Nat} {cs : List Char} (h : SpellsNatural n cs) : SpellsInteger n cs
  | plus {n : Nat} {cs : List Char} (h : SpellsNatural n cs) : SpellsInteger n ('+' :: cs)
  | minus {n : Nat} {cs : List Char} (h : SpellsNatural n cs) : SpellsInteger (-n) ('-' :: cs)
  | inBase {mark : Char} {base : Nat} {ds cs : List Char}
      (hbase : (mark, base) ∈ [('x', 16), ('o', 8), ('b', 2)])
      (h : SpellsDigits (isDigitIn base) ds cs) :
    SpellsInteger (valueIn base ds) ('0' :: mark :: cs)

/-- What follows the mark of an exponent. -/
inductive SpellsExponent : Int → List Char → Prop
  | bare {n : Nat} {ds cs : List Char} (h : SpellsDigits isDigit ds cs) (value : Text.Writes ds n) :
    SpellsExponent n cs
  | plus {n : Nat} {ds cs : List Char} (h : SpellsDigits isDigit ds cs) (value : Text.Writes ds n) :
    SpellsExponent n ('+' :: cs)
  | minus {n : Nat} {ds cs : List Char} (h : SpellsDigits isDigit ds cs)
      (value : Text.Writes ds n) : SpellsExponent (-n) ('-' :: cs)

/-- A mark and an exponent, or nothing. -/
inductive SpellsScale : Int → List Char → Prop
  | none : SpellsScale 0 []
  | mark {mark : Char} {e : Int} {cs : List Char} (hmark : mark = 'e' ∨ mark = 'E')
      (h : SpellsExponent e cs) : SpellsScale e (mark :: cs)

/-- A fraction without a sign has a point, an exponent, or both. -/
inductive SpellsMagnitude : Text.Decimal → List Char → Prop
  | pointed {ws fs whole fraction scale : List Char} {e : Int} (hwhole : SpellsWhole ws whole)
      (hfraction : SpellsDigits isDigit fs fraction) (hscale : SpellsScale e scale) :
    SpellsMagnitude ⟨ws ++ fs, e - fs.length⟩ (whole ++ '.' :: (fraction ++ scale))
  | scaled {ws whole scale : List Char} {e : Int} (hwhole : SpellsWhole ws whole)
      (hscale : SpellsScale e scale) (hne : scale ≠ []) : SpellsMagnitude ⟨ws, e⟩ (whole ++ scale)

inductive SpellsUnsigned : Option Text.Decimal → List Char → Prop
  | infinity : SpellsUnsigned none ['i', 'n', 'f']
  | noNumber : SpellsUnsigned none ['n', 'a', 'n']
  | magnitude {d : Text.Decimal} {cs : List Char} (h : SpellsMagnitude d cs) :
    SpellsUnsigned (some d) cs

/-- A fraction with a sign in front or none. -/
inductive SpellsFloat : Option Text.Decimal → List Char → Prop
  | bare {m : Option Text.Decimal} {cs : List Char} (h : SpellsUnsigned m cs) : SpellsFloat m cs
  | signed {m : Option Text.Decimal} {sign : Char} {cs : List Char}
      (hsign : sign = '+' ∨ sign = '-') (h : SpellsUnsigned m cs) : SpellsFloat m (sign :: cs)

/-! ## Dates and times -/

/-- A number of two digits. -/
def twoDigits (n : Nat) : List Char := [Nat.digitChar (n / 10), Nat.digitChar (n % 10)]

inductive SpellsDate : List Char → Prop
  | date {y m d : Nat} (hy : y < 10000) (hm : 1 ≤ m ∧ m ≤ 12) (hd : 1 ≤ d ∧ d ≤ daysInMonth y m) :
    SpellsDate (twoDigits (y / 100) ++ (twoDigits (y % 100)
      ++ '-' :: (twoDigits m ++ '-' :: twoDigits d)))

/-- Seconds, with a fraction or without one, or nothing. -/
inductive SpellsSeconds : List Char → Prop
  | none : SpellsSeconds []
  | whole {s : Nat} (hs : s ≤ 60) : SpellsSeconds (':' :: twoDigits s)
  | fraction {s : Nat} {ds : List Char} (hs : s ≤ 60) (hne : ds ≠ [])
      (hds : ∀ d ∈ ds, isDigit d = true) : SpellsSeconds (':' :: (twoDigits s ++ '.' :: ds))

inductive SpellsTime : List Char → Prop
  | time {h m : Nat} {seconds : List Char} (hh : h ≤ 23) (hm : m ≤ 59)
      (hseconds : SpellsSeconds seconds) :
    SpellsTime (twoDigits h ++ ':' :: (twoDigits m ++ seconds))

inductive SpellsOffset : List Char → Prop
  | none : SpellsOffset []
  | universal {c : Char} (hc : c = 'Z' ∨ c = 'z') : SpellsOffset [c]
  | hours {sign : Char} {h m : Nat} (hsign : sign = '+' ∨ sign = '-') (hh : h ≤ 23) (hm : m ≤ 59) :
    SpellsOffset (sign :: (twoDigits h ++ ':' :: twoDigits m))

/-- A date, a time, or a date and a time with a letter or a space between them. -/
inductive SpellsMoment : List Char → Prop
  | date {cs : List Char} (h : SpellsDate cs) : SpellsMoment cs
  | time {cs : List Char} (h : SpellsTime cs) : SpellsMoment cs
  | both {date time offset : List Char} {c : Char} (hdate : SpellsDate date)
      (hc : c = 'T' ∨ c = 't' ∨ c = ' ') (htime : SpellsTime time) (hoffset : SpellsOffset offset) :
    SpellsMoment (date ++ c :: (time ++ offset))

/-! ## Words -/

/-- The forms of a value that is a word. -/
inductive SpellsWord : Scalar → List Char → Prop
  | yes : SpellsWord (.bool true) ['t', 'r', 'u', 'e']
  | no : SpellsWord (.bool false) ['f', 'a', 'l', 's', 'e']
  | integer {n : Int} {cs : List Char} (h : SpellsInteger n cs) : SpellsWord (.integer n) cs
  | float {m : Option Text.Decimal} {cs : List Char} (h : SpellsFloat m cs) :
    SpellsWord (.float m) cs
  | moment {cs : List Char} (h : SpellsMoment cs) : SpellsWord .moment cs

/-! ## Reading digits -/

theorem SpellsDigits.head {p : Char → Bool} {ds cs : List Char} (h : SpellsDigits p ds cs) :
    ∃ d tail, cs = d :: tail ∧ p d = true := by
  cases h <;> exact ⟨_, _, rfl, ‹_›⟩

theorem SpellsDigits.forall {p : Char → Bool} {ds cs : List Char} (h : SpellsDigits p ds cs) :
    ∀ c ∈ cs, p c = true ∨ c = '_' := by
  induction h with
  | last h => simp [h]
  | next h _ ih => exact List.forall_mem_cons.mpr ⟨Or.inl h, ih⟩
  | spaced h _ ih =>
    exact List.forall_mem_cons.mpr ⟨Or.inl h, List.forall_mem_cons.mpr ⟨Or.inr rfl, ih⟩⟩

theorem SpellsDigits.digit {p : Char → Bool} {ds cs : List Char} (h : SpellsDigits p ds cs) :
    ∀ d ∈ ds, p d = true := by
  induction h with
  | last h => simp [h]
  | next h _ ih | spaced h _ ih => exact List.forall_mem_cons.mpr ⟨h, ih⟩

theorem digits?_of_spelled {p : Char → Bool} {ds cs : List Char} (hp : p '_' = false)
    (h : SpellsDigits p ds cs) : digits? p cs = some ds := by
  induction h with
  | last h => simp [digits?, h]
  | @next d ds cs h hrest ih =>
    obtain ⟨e, tail, rfl, he⟩ := hrest.head
    have hunderscore : e ≠ '_' := by
      rintro rfl
      rw [hp] at he
      cases he
    rw [digits?.eq_def]
    split
    case h_1 heq => cases heq
    case h_2 heq => cases heq
    case h_3 heq =>
      cases heq
      exact absurd rfl hunderscore
    case h_4 heq =>
      cases heq
      rw [if_pos h, ih]
      rfl
  | spaced h _ ih => simp [digits?, h, ih]

/-- A character of a number other than its signs and marks. -/
def isNumberChar (c : Char) : Bool := isDigit c || c == '_'

theorem SpellsDigits.isNumberChar {ds cs : List Char} (h : SpellsDigits isDigit ds cs) :
    ∀ c ∈ cs, isNumberChar c = true := by
  intro c hc
  rcases h.forall c hc with hdigit | rfl
  · simp [Toml.isNumberChar, hdigit]
  · rfl

theorem isNumberChar_of_digits? {cs ds : List Char} (h : digits? isDigit cs = some ds) :
    ∀ c ∈ cs, isNumberChar c = true := by
  have hdigit : ∀ {c}, isDigit c = true → isNumberChar c = true := fun hc => by
    simp [isNumberChar, hc]
  fun_induction digits? isDigit cs generalizing ds with
  | case1 | case3 | case5 | case7 => cases h
  | case2 c hc => simp [hdigit hc]
  | case4 c rest hc ih =>
    obtain ⟨_, hrest, _⟩ := Option.map_eq_some_iff.mp h
    exact List.forall_mem_cons.mpr ⟨hdigit hc, List.forall_mem_cons.mpr ⟨rfl, ih hrest⟩⟩
  | case6 c rest _ _ hc ih =>
    obtain ⟨_, hrest, _⟩ := Option.map_eq_some_iff.mp h
    exact List.forall_mem_cons.mpr ⟨hdigit hc, ih hrest⟩

theorem whole?_of_spelled {ds cs : List Char} (h : SpellsWhole ds cs) : whole? cs = some ds := by
  unfold whole?
  rw [digits?_of_spelled rfl h.digits]
  split
  case h_1 heq =>
    obtain rfl := Option.some.inj heq
    cases h.zero _ rfl
  case h_2 => rfl

theorem whole?_of_natural {n : Nat} {cs : List Char} (h : SpellsNatural n cs) :
    (whole? cs).map Text.decimalValue = some n := by
  obtain ⟨ds, hds, hvalue⟩ := h
  rw [whole?_of_spelled hds, Option.map_some, (Text.digits_of_writes hvalue).2.2]

/-! ## The first mark -/

/-- The first character that is neither a digit nor an underscore. -/
def mark? (cs : List Char) : Option Char := (cs.dropWhile isNumberChar).head?

theorem mark?_append {cs : List Char} (h : ∀ c ∈ cs, isNumberChar c = true) (rest : List Char) :
    mark? (cs ++ rest) = mark? rest := by
  unfold mark?
  rw [List.dropWhile_append_of_pos h]

theorem mark?_eq_none {cs : List Char} (h : ∀ c ∈ cs, isNumberChar c = true) :
    mark? cs = none := by
  have happend := mark?_append h []
  rwa [List.append_nil] at happend

theorem mark?_cons {c : Char} (h : isNumberChar c = false) (cs : List Char) :
    mark? (c :: cs) = some c := by
  simp [mark?, h]

theorem whole?_eq_none {cs : List Char} (h : mark? cs ≠ none) : whole? cs = none := by
  have hdigits : digits? isDigit cs = none := by
    cases hds : digits? isDigit cs with
    | none => rfl
    | some ds => exact absurd (mark?_eq_none (isNumberChar_of_digits? hds)) h
  unfold whole?
  rw [hdigits]

/-- No integer begins with digits and then one of these marks. -/
theorem integer?_eq_none {cs : List Char} {m : Char} (h : mark? cs = some m)
    (hm : m ∈ ['.', 'e', 'E']) : integer? cs = none := by
  have hmark : ∀ {c : Char}, c ∉ ['.', 'e', 'E'] → mark? cs ≠ some c := by
    rintro c hc heq
    obtain rfl := Option.some.inj (h.symm.trans heq)
    exact hc hm
  unfold integer?
  split
  case h_6 => rw [whole?_eq_none (by simp [h]), Option.map_none]
  all_goals exact absurd rfl (hmark (by decide))

theorem mark?_digits {digits : List Char} {n : Nat} (h : natural? digits = some n) {sign : Char}
    (hsign : isNumberChar sign = false) (rest : List Char) :
    mark? (digits ++ sign :: rest) = some sign := by
  have hdigits := (Text.natural?_eq_some.mp h).2.1
  rw [mark?_append (fun c hc => by simp [isNumberChar, hdigits c hc]), mark?_cons hsign]

theorem mark?_of_afterDate? {cs rest : List Char} (h : afterDate? cs = some rest) :
    mark? cs = some '-' ∧ ∀ c ∈ cs.head?, isDigit c = true := by
  unfold afterDate? at h
  split at h
  case h_1 y₁ y₂ y₃ y₄ m₁ m₂ d₁ d₂ tail =>
    obtain ⟨year, hyear, _⟩ := Option.bind_eq_some_iff.mp h
    refine ⟨mark?_digits hyear rfl _, ?_⟩
    rintro c hc
    obtain rfl := Option.some.inj hc
    exact (Text.natural?_eq_some.mp hyear).2.1 _ List.mem_cons_self
  case h_2 => cases h

theorem mark?_of_afterTime? {cs rest : List Char} (h : afterTime? cs = some rest) :
    mark? cs = some ':' ∧ ∀ c ∈ cs.head?, isDigit c = true := by
  unfold afterTime? at h
  split at h
  case h_1 h₁ h₂ m₁ m₂ tail =>
    obtain ⟨hour, hhour, _⟩ := Option.bind_eq_some_iff.mp h
    have hdigits := (Option.filter_eq_some_iff.mp hhour).1
    refine ⟨mark?_digits hdigits rfl _, ?_⟩
    rintro c hc
    obtain rfl := Option.some.inj hc
    exact (Text.natural?_eq_some.mp hdigits).2.1 _ List.mem_cons_self
  case h_2 => cases h

/-- A date and a time begin with a digit, and behind the first digits stands one of two signs. -/
theorem isMoment_eq_false {cs : List Char}
    (h : (mark? cs ≠ some '-' ∧ mark? cs ≠ some ':') ∨ ∃ c ∈ cs.head?, isDigit c = false) :
    isMoment cs = false := by
  have hnone : ∀ {after : Option (List Char)} {sign : Char},
      (mark? cs ≠ some sign ∨ ∃ c ∈ cs.head?, isDigit c = false) →
      (∀ rest, after = some rest → mark? cs = some sign ∧ ∀ c ∈ cs.head?, isDigit c = true) →
      after = none := by
    intro after sign hother hbegins
    cases after with
    | none => rfl
    | some rest =>
      obtain ⟨hmark, hdigit⟩ := hbegins rest rfl
      rcases hother with hne | ⟨c, hc, hne⟩
      · exact absurd hmark hne
      · rw [hdigit c hc] at hne
        cases hne
  have hdate := hnone (h.imp_left And.left) fun _ => mark?_of_afterDate?
  have htime := hnone (h.imp_left And.right) fun _ => mark?_of_afterTime?
  unfold isMoment
  rw [hdate, htime]
  rfl

/-! ## Reading numbers -/

theorem SpellsWhole.head {ds cs : List Char} (h : SpellsWhole ds cs) :
    ∃ c tail, cs = c :: tail ∧ isDigit c = true := h.digits.head

theorem hexValue?_underscore : hexValue? '_' = none := by decide

theorem SpellsNatural.mark?_eq {n : Nat} {cs : List Char} (h : SpellsNatural n cs) :
    mark? cs = none := by
  obtain ⟨ds, hds, _⟩ := h
  exact mark?_eq_none hds.digits.isNumberChar

theorem cases_of_base {mark : Char} {base : Nat}
    (h : (mark, base) ∈ [('x', 16), ('o', 8), ('b', 2)]) :
    (mark = 'x' ∧ base = 16) ∨ (mark = 'o' ∧ base = 8) ∨ mark = 'b' ∧ base = 2 := by
  simpa using h

theorem integer?_of_spelled {n : Int} {cs : List Char} (h : SpellsInteger n cs) :
    integer? cs = some n := by
  have hcast : ∀ {n : Nat} {cs : List Char}, SpellsNatural n cs → ∀ f : Nat → Int,
      ((whole? cs).map fun ds => f (Text.decimalValue ds)) = some (f n) := by
    intro n cs h f
    have hwhole := whole?_of_natural h
    obtain ⟨ds, hds, hvalue⟩ := Option.map_eq_some_iff.mp hwhole
    rw [hds, Option.map_some, hvalue]
  cases h with
  | @bare n cs h =>
    have hmark : ∀ {c : Char} {tail}, cs = tail → mark? tail ≠ some c := by
      rintro c tail rfl heq
      rw [h.mark?_eq] at heq
      cases heq
    unfold integer?
    split
    case h_6 => exact hcast h fun n => n
    all_goals exact absurd rfl (hmark rfl)
  | plus h => exact hcast h fun n => n
  | minus h => exact hcast h fun n => -n
  | @inBase mark base ds cs hbase h =>
    have hdigits : inBase? base cs = some (valueIn base ds : Int) := by
      unfold inBase?
      rw [digits?_of_spelled (by rw [isDigitIn, hexValue?_underscore]; rfl) h]
      rfl
    rcases cases_of_base hbase with ⟨rfl, rfl⟩ | ⟨rfl, rfl⟩ | ⟨rfl, rfl⟩ <;> exact hdigits

theorem SpellsInteger.not_moment {n : Int} {cs : List Char} (h : SpellsInteger n cs) :
    isMoment cs = false := by
  apply isMoment_eq_false
  cases h with
  | bare h => simp [h.mark?_eq]
  | plus _ | minus _ => exact Or.inr ⟨_, rfl, rfl⟩
  | inBase hbase _ =>
    rcases cases_of_base hbase with ⟨rfl, rfl⟩ | ⟨rfl, rfl⟩ | ⟨rfl, rfl⟩ <;>
      exact Or.inl ⟨fun h => absurd (Option.some.inj h) (by decide),
        fun h => absurd (Option.some.inj h) (by decide)⟩

/-! ## Reading fractions -/

theorem exponent?_of_spelled {e : Int} {cs : List Char} (h : SpellsExponent e cs) :
    exponent? cs = some e := by
  have hdigits : ∀ {n : Nat} {ds cs : List Char}, SpellsDigits isDigit ds cs → Text.Writes ds n →
      ∀ f : Nat → Int,
        ((digits? isDigit cs).map fun ds => f (Text.decimalValue ds)) = some (f n) := by
    intro n ds cs hds hvalue f
    rw [digits?_of_spelled rfl hds, Option.map_some, (Text.digits_of_writes hvalue).2.2]
  cases h with
  | @bare n ds cs h value =>
    obtain ⟨c, tail, rfl, hc⟩ := h.head
    unfold exponent?
    split
    case h_1 heq =>
      cases heq
      cases hc
    case h_2 heq =>
      cases heq
      cases hc
    case h_3 => exact hdigits h value fun n => n
  | plus h value => exact hdigits h value fun n => n
  | minus h value => exact hdigits h value fun n => -n

/-- A text is cut where a condition on its characters fails for the first time. -/
theorem cut_append {p : Char → Bool} {front back : List Char} (hfront : ∀ c ∈ front, p c = true)
    (hback : ∀ c ∈ back.head?, p c = false) :
    (front ++ back).takeWhile p = front ∧ (front ++ back).dropWhile p = back := by
  rw [List.takeWhile_append_of_pos hfront, List.dropWhile_append_of_pos hfront]
  cases back with
  | nil => simp
  | cons c back => simp [hback c rfl]

theorem SpellsScale.head {e : Int} {cs : List Char} (h : SpellsScale e cs) :
    ∀ c ∈ cs.head?, c = 'e' ∨ c = 'E' := by
  intro c hc
  cases h with
  | none => cases hc
  | mark hmark _ => exact Option.some.inj hc ▸ hmark

theorem ne_of_isNumberChar {c d : Char} (h : isNumberChar c = true) (hd : isNumberChar d = false) :
    c ≠ d := by
  rintro rfl
  rw [h] at hd
  cases hd

/-- An exponent begins at the first mark of one. -/
theorem SpellsScale.cut {e : Int} {scale mantissa : List Char} (h : SpellsScale e scale)
    (hmantissa : ∀ c ∈ mantissa, isNumberChar c = true ∨ c = '.') :
    (mantissa ++ scale).takeWhile (fun c => !(c == 'e' || c == 'E')) = mantissa
      ∧ (mantissa ++ scale).dropWhile (fun c => !(c == 'e' || c == 'E')) = scale := by
  refine cut_append (fun c hc => ?_) fun c hc => ?_
  · rcases hmantissa c hc with hnumber | rfl
    · simp [ne_of_isNumberChar hnumber (show isNumberChar 'e' = false from rfl),
        ne_of_isNumberChar hnumber (show isNumberChar 'E' = false from rfl)]
    · rfl
  · rcases h.head c hc with rfl | rfl <;> rfl

/-- A whole number ends at the point. -/
theorem SpellsWhole.cut {ws whole rest : List Char} (h : SpellsWhole ws whole)
    (hrest : ∀ c ∈ rest.head?, c = '.') :
    (whole ++ rest).takeWhile (· != '.') = whole
      ∧ (whole ++ rest).dropWhile (· != '.') = rest := by
  refine cut_append (fun c hc => ?_) fun c hc => ?_
  · exact bne_iff_ne.mpr (ne_of_isNumberChar (h.digits.isNumberChar c hc) rfl)
  · rw [hrest c hc]
    rfl

theorem magnitude?_of_spelled {d : Text.Decimal} {cs : List Char} (h : SpellsMagnitude d cs) :
    magnitude? cs = some d := by
  cases h with
  | @pointed ws fs whole fraction scale e hwhole hfraction hscale =>
    have hchars : ∀ c ∈ whole ++ '.' :: fraction, isNumberChar c = true ∨ c = '.' := by
      rw [List.forall_mem_append, List.forall_mem_cons]
      exact ⟨fun c hc => Or.inl (hwhole.digits.isNumberChar c hc), Or.inr rfl,
        fun c hc => Or.inl (hfraction.isNumberChar c hc)⟩
    obtain ⟨hmantissa, hrest⟩ := hscale.cut hchars
    rw [List.append_assoc, List.cons_append] at hmantissa hrest
    obtain ⟨hbefore, hafter⟩ := @SpellsWhole.cut _ _ ('.' :: fraction) hwhole
      fun c hc => (Option.some.inj hc).symm
    have hne : fs ≠ [] := by cases hfraction <;> exact List.cons_ne_nil _ _
    unfold magnitude?
    simp only [hmantissa, hrest, hbefore, hafter, whole?_of_spelled hwhole,
      @digits?_of_spelled isDigit _ _ rfl hfraction]
    cases hscale with
    | none => simp [hne]
    | mark _ h => simp [exponent?_of_spelled h]
  | @scaled ws whole scale e hwhole hscale hne =>
    obtain ⟨hmantissa, hrest⟩ := hscale.cut fun c hc => Or.inl (hwhole.digits.isNumberChar c hc)
    obtain ⟨hbefore, hafter⟩ := @SpellsWhole.cut _ _ [] hwhole fun c hc => nomatch hc
    rw [List.append_nil] at hbefore hafter
    unfold magnitude?
    simp only [hmantissa, hrest, hbefore, hafter, whole?_of_spelled hwhole]
    cases hscale with
    | none => exact absurd rfl hne
    | mark _ h => simp [exponent?_of_spelled h]

theorem SpellsMagnitude.mark?_eq {d : Text.Decimal} {cs : List Char} (h : SpellsMagnitude d cs) :
    ∃ m ∈ ['.', 'e', 'E'], mark? cs = some m := by
  cases h with
  | pointed hwhole _ _ =>
    refine ⟨'.', by simp, ?_⟩
    rw [mark?_append hwhole.digits.isNumberChar, mark?_cons rfl]
  | scaled hwhole hscale hne =>
    rw [mark?_append hwhole.digits.isNumberChar]
    cases hscale with
    | none => exact absurd rfl hne
    | mark hmark _ => rcases hmark with rfl | rfl <;> exact ⟨_, by simp, rfl⟩

theorem SpellsMagnitude.head {d : Text.Decimal} {cs : List Char} (h : SpellsMagnitude d cs) :
    ∃ c tail, cs = c :: tail ∧ isDigit c = true := by
  cases h with
  | pointed hwhole _ _ | scaled hwhole _ _ =>
    obtain ⟨c, tail, rfl, hc⟩ := hwhole.head
    exact ⟨c, _, rfl, hc⟩

/-- A fraction without a sign is no integer and begins with no sign, and no date begins as it. -/
theorem SpellsUnsigned.reads {m : Option Text.Decimal} {cs : List Char} (h : SpellsUnsigned m cs) :
    unsignedFloat? cs = some (.float m) ∧ integer? cs = none ∧ whole? cs = none
      ∧ isMoment cs = false ∧ ∀ c ∈ cs.head?, c ≠ '+' ∧ c ≠ '-' ∧ c ≠ 't' ∧ c ≠ 'f' := by
  cases h with
  | infinity | noNumber =>
    refine ⟨rfl, rfl, rfl, rfl, fun c hc => ?_⟩
    obtain rfl := Option.some.inj hc
    decide
  | @magnitude d cs h =>
    obtain ⟨m, hm, hmark⟩ := h.mark?_eq
    obtain ⟨c, tail, rfl, hc⟩ := h.head
    have hne : ∀ d, isDigit d = false → c ≠ d := by
      rintro d hd rfl
      rw [hc] at hd
      cases hd
    refine ⟨?_, integer?_eq_none hmark hm, whole?_eq_none (by simp [hmark]), ?_, ?_⟩
    · unfold unsignedFloat?
      rw [magnitude?_of_spelled h]
      simp [hne 'i' rfl, hne 'n' rfl]
    · apply isMoment_eq_false
      rw [hmark]
      simp only [List.mem_cons, List.not_mem_nil, or_false] at hm
      rcases hm with rfl | rfl | rfl <;> exact Or.inl ⟨by decide, by decide⟩
    · rintro d hd
      obtain rfl := Option.some.inj hd
      exact ⟨hne '+' rfl, hne '-' rfl, hne 't' rfl, hne 'f' rfl⟩

theorem SpellsFloat.reads {m : Option Text.Decimal} {cs : List Char} (h : SpellsFloat m cs) :
    float? cs = some (.float m) ∧ integer? cs = none ∧ isMoment cs = false
      ∧ ∀ c ∈ cs.head?, c ≠ 't' ∧ c ≠ 'f' := by
  cases h with
  | bare h =>
    obtain ⟨hfloat, hinteger, _, hmoment, hhead⟩ := h.reads
    refine ⟨?_, hinteger, hmoment, fun c hc => (hhead c hc).2.2⟩
    unfold float?
    split
    case h_1 => exact absurd rfl (hhead '+' rfl).1
    case h_2 => exact absurd rfl (hhead '-' rfl).2.1
    case h_3 => exact hfloat
  | @signed sign cs hsign h =>
    obtain ⟨hfloat, _, hwhole, _, _⟩ := h.reads
    have hmoment : isMoment (sign :: cs) = false :=
      isMoment_eq_false (Or.inr ⟨sign, rfl, by rcases hsign with rfl | rfl <;> rfl⟩)
    refine ⟨?_, ?_, hmoment, fun c hc => ?_⟩
    · rcases hsign with rfl | rfl <;> exact hfloat
    · rcases hsign with rfl | rfl <;> simp [integer?, hwhole]
    · obtain rfl := Option.some.inj hc
      rcases hsign with rfl | rfl <;> decide

/-! ## Reading dates and times -/

theorem natural?_twoDigits {n : Nat} (h : n < 100) : natural? (twoDigits n) = some n := by
  have hwrites := Text.Writes.more (⟨n % 10, by omega⟩ : Fin 10)
    (.digit (⟨n / 10, by omega⟩ : Fin 10))
  rw [← Text.natural?_iff_writes] at hwrites
  exact hwrites.trans (congrArg some (by dsimp only; omega))

theorem natural?_fourDigits {n : Nat} (h : n < 10000) :
    natural? (twoDigits (n / 100) ++ twoDigits (n % 100)) = some n := by
  have hwrites := Text.Writes.more (⟨n % 10, by omega⟩ : Fin 10)
    (.more (⟨n / 10 % 10, by omega⟩ : Fin 10)
      (.more (⟨n / 100 % 10, by omega⟩ : Fin 10) (.digit (⟨n / 1000, by omega⟩ : Fin 10))))
  rw [← Text.natural?_iff_writes] at hwrites
  have hdigits : twoDigits (n / 100) ++ twoDigits (n % 100)
      = [Nat.digitChar (n / 1000), Nat.digitChar (n / 100 % 10), Nat.digitChar (n / 10 % 10),
        Nat.digitChar (n % 10)] := by
    have hthird : n % 100 / 10 = n / 10 % 10 := by omega
    have hfourth : n % 100 % 10 = n % 10 := by omega
    rw [twoDigits, twoDigits, Nat.div_div_eq_div_mul, hthird, hfourth]
    rfl
  rw [hdigits]
  exact hwrites.trans (congrArg some (by dsimp only; omega))

theorem twoDigits?_of_le {low high n : Nat} (hlow : low ≤ n) (hhigh : n ≤ high) (h : n < 100) :
    twoDigits? low high (Nat.digitChar (n / 10)) (Nat.digitChar (n % 10)) = some n := by
  unfold twoDigits?
  rw [show [Nat.digitChar (n / 10), Nat.digitChar (n % 10)] = twoDigits n from rfl,
    natural?_twoDigits h]
  simp [hlow, hhigh]

theorem daysInMonth_lt (y m : Nat) : daysInMonth y m < 100 := by
  unfold daysInMonth
  repeat' split
  all_goals omega

theorem afterDate?_append {date : List Char} (h : SpellsDate date) (rest : List Char) :
    afterDate? (date ++ rest) = some rest := by
  cases h with
  | @date y m d hy hm hd =>
    have hyear := natural?_fourDigits hy
    have hmonth := twoDigits?_of_le hm.1 hm.2 (by omega)
    have hday := twoDigits?_of_le hd.1 hd.2 (by have := daysInMonth_lt y m; omega)
    simp only [twoDigits, List.cons_append, List.nil_append] at hyear ⊢
    rw [afterDate?, hyear, hmonth]
    change ((twoDigits? 1 (daysInMonth y m) _ _).bind _) = _
    rw [hday]
    rfl

/-- What stands here goes on with no time. -/
def EndsTime (cs : List Char) : Prop := ∀ c ∈ cs.head?, c ≠ ':' ∧ c ≠ '.' ∧ isDigit c = false

theorem afterTime?_append {time rest : List Char} (h : SpellsTime time) (hrest : EndsTime rest) :
    afterTime? (time ++ rest) = some rest := by
  cases h with
  | @time h m seconds hh hm hseconds =>
    have hhour := twoDigits?_of_le (Nat.zero_le h) hh (by omega)
    have hminute := twoDigits?_of_le (Nat.zero_le m) hm (by omega)
    cases hseconds with
    | none =>
      cases rest with
      | nil => simp [twoDigits, afterTime?, hhour, hminute]
      | cons c rest =>
        have hc := (hrest c rfl).1
        simp [twoDigits, afterTime?, hhour, hminute, hc]
    | @whole s hs =>
      have hsecond := twoDigits?_of_le (Nat.zero_le s) hs (by omega)
      have hfraction : afterFraction? rest = some rest := by
        unfold afterFraction?
        split
        case h_1 => exact absurd rfl (hrest '.' rfl).2.1
        case h_2 => rfl
      simp [twoDigits, afterTime?, hhour, hminute, hsecond, hfraction]
    | @fraction s ds hs hne hds =>
      have hsecond := twoDigits?_of_le (Nat.zero_le s) hs (by omega)
      have hfraction : afterFraction? ('.' :: (ds ++ rest)) = some rest := by
        obtain ⟨hdigits, hafter⟩ := cut_append hds fun c hc => (hrest c hc).2.2
        simp [afterFraction?, hdigits, hafter, hne]
      simp [twoDigits, afterTime?, hhour, hminute, hsecond, hfraction]

theorem SpellsOffset.ends {cs : List Char} (h : SpellsOffset cs) : EndsTime cs := by
  intro c hc
  cases h with
  | none => cases hc
  | universal h =>
    obtain rfl := Option.some.inj hc
    rcases h with rfl | rfl <;> decide
  | hours hsign _ _ =>
    obtain rfl := Option.some.inj hc
    rcases hsign with rfl | rfl <;> decide

theorem isOffset_of_spelled {cs : List Char} (h : SpellsOffset cs) : isOffset cs = true := by
  cases h with
  | none => rfl
  | universal h => rcases h with rfl | rfl <;> rfl
  | @hours sign h m hsign hh hm =>
    have hhour := twoDigits?_of_le (Nat.zero_le h) hh (by omega)
    have hminute := twoDigits?_of_le (Nat.zero_le m) hm (by omega)
    rcases hsign with rfl | rfl <;> simp [twoDigits, isOffset, hhour, hminute]

theorem isMoment_of_spelled {cs : List Char} (h : SpellsMoment cs) : isMoment cs = true := by
  cases h with
  | date h =>
    have hdate := afterDate?_append h []
    rw [List.append_nil] at hdate
    rw [isMoment, hdate]
  | time h =>
    have htime := @afterTime?_append _ [] h fun _ hc => nomatch hc
    rw [List.append_nil] at htime
    have hdate : afterDate? cs = none := by
      cases hafter : afterDate? cs with
      | none => rfl
      | some rest =>
        have hmark := (mark?_of_afterTime? htime).1
        rw [(mark?_of_afterDate? hafter).1] at hmark
        exact absurd (Option.some.inj hmark) (by decide)
    rw [isMoment, hdate, htime]
    rfl
  | both hdate hc htime hoffset =>
    rw [isMoment, afterDate?_append hdate]
    simp only [afterTime?_append htime hoffset.ends, Option.any_some, isOffset_of_spelled hoffset]
    rcases hc with rfl | rfl | rfl <;> rfl

/-! ## Reading words -/

theorem Scalar.ofWord?_of_spelled {v : Scalar} {cs : List Char} (h : SpellsWord v cs) :
    ofWord? cs = some v := by
  cases h with
  | yes => rfl
  | no => rfl
  | @integer n cs h =>
    have hinteger := integer?_of_spelled h
    have hyes : cs ≠ ['t', 'r', 'u', 'e'] := by
      rintro rfl
      cases hinteger
    have hno : cs ≠ ['f', 'a', 'l', 's', 'e'] := by
      rintro rfl
      cases hinteger
    simp [ofWord?, hyes, hno, h.not_moment, hinteger]
  | @float m cs h =>
    obtain ⟨hfloat, hinteger, hmoment, hhead⟩ := h.reads
    have hyes : cs ≠ ['t', 'r', 'u', 'e'] := by
      rintro rfl
      exact (hhead 't' rfl).1 rfl
    have hno : cs ≠ ['f', 'a', 'l', 's', 'e'] := by
      rintro rfl
      exact (hhead 'f' rfl).2 rfl
    simp [ofWord?, hyes, hno, hmoment, hinteger, hfloat]
  | moment h =>
    have hmoment := isMoment_of_spelled h
    have hyes : cs ≠ ['t', 'r', 'u', 'e'] := by
      rintro rfl
      cases hmoment
    have hno : cs ≠ ['f', 'a', 'l', 's', 'e'] := by
      rintro rfl
      cases hmoment
    simp [ofWord?, hyes, hno, hmoment]

/-! ## The characters of words -/

/-- Characters that go on with a word, and between them single points and spaces. -/
inductive WordRun : List Char → Prop
  | word {cs : List Char} (hne : cs ≠ []) (h : ∀ c ∈ cs, Lexer.isWordChar c = true) : WordRun cs
  | join {cs ds : List Char} {sign : Char} (hsign : sign = '.' ∨ sign = ' ') (hfirst : WordRun cs)
      (hrest : WordRun ds) : WordRun (cs ++ sign :: ds)

namespace WordRun

variable {cs ds : List Char}

theorem prepend (h : ∀ c ∈ ds, Lexer.isWordChar c = true) (hcs : WordRun cs) :
    WordRun (ds ++ cs) := by
  induction hcs with
  | word hne hcs =>
    exact .word (List.append_ne_nil_of_right_ne_nil _ hne) (List.forall_mem_append.mpr ⟨h, hcs⟩)
  | join hsign _ hrest ih _ =>
    rw [← List.append_assoc]
    exact .join hsign ih hrest

theorem append (hcs : WordRun cs) (h : ∀ c ∈ ds, Lexer.isWordChar c = true) :
    WordRun (cs ++ ds) := by
  induction hcs with
  | word hne hcs =>
    exact .word (List.append_ne_nil_of_left_ne_nil hne _) (List.forall_mem_append.mpr ⟨hcs, h⟩)
  | join hsign hfirst _ _ ih =>
    rw [List.append_assoc, List.cons_append]
    exact .join hsign hfirst ih

end WordRun

/-- What no blank and no delimiter is goes on with a word. -/
theorem isWordChar_of {p : Char → Bool}
    (h : (' ' :: '\t' :: Lexer.delimiters).all (fun c => !p c) = true) {c : Char}
    (hc : p c = true) : Lexer.isWordChar c = true := by
  cases hword : Lexer.isWordChar c with
  | true => rfl
  | false =>
    have hmem : c ∈ ' ' :: '\t' :: Lexer.delimiters := by
      simpa [Lexer.isWordChar, isBlank, or_assoc, Decidable.or_iff_not_imp_left] using hword
    simpa [hc] using List.all_eq_true.mp h c hmem

theorem isWordChar_of_isDigit {c : Char} (h : isDigit c = true) : Lexer.isWordChar c = true :=
  isWordChar_of (p := isDigit) (by decide) h

theorem SpellsDigits.isWordChar {p : Char → Bool} {ds cs : List Char}
    (hp : (' ' :: '\t' :: Lexer.delimiters).all (fun c => !p c) = true)
    (h : SpellsDigits p ds cs) : ∀ c ∈ cs, Lexer.isWordChar c = true := by
  intro c hc
  rcases h.forall c hc with hdigit | rfl
  · exact isWordChar_of hp hdigit
  · rfl

theorem SpellsExponent.isWordChar {e : Int} {cs : List Char} (h : SpellsExponent e cs) :
    ∀ c ∈ cs, Lexer.isWordChar c = true := by
  cases h with
  | bare h _ => exact h.isWordChar (by decide)
  | plus h _ | minus h _ => exact List.forall_mem_cons.mpr ⟨rfl, h.isWordChar (by decide)⟩

theorem SpellsScale.isWordChar {e : Int} {cs : List Char} (h : SpellsScale e cs) :
    ∀ c ∈ cs, Lexer.isWordChar c = true := by
  cases h with
  | none => exact nofun
  | mark hmark h =>
    refine List.forall_mem_cons.mpr ⟨?_, h.isWordChar⟩
    rcases hmark with rfl | rfl <;> rfl

theorem SpellsMagnitude.run {d : Text.Decimal} {cs : List Char} (h : SpellsMagnitude d cs) :
    WordRun cs := by
  have hne : ∀ {ds cs : List Char}, SpellsDigits isDigit ds cs → cs ≠ [] := by
    intro ds cs h
    obtain ⟨c, tail, rfl, _⟩ := h.head
    exact List.cons_ne_nil _ _
  cases h with
  | pointed hwhole hfraction hscale =>
    refine .join (Or.inl rfl) (.word (hne hwhole.digits) (hwhole.digits.isWordChar (by decide))) ?_
    exact WordRun.append (.word (hne hfraction) (hfraction.isWordChar (by decide)))
      hscale.isWordChar
  | scaled hwhole hscale _ =>
    exact WordRun.append (.word (hne hwhole.digits) (hwhole.digits.isWordChar (by decide)))
      hscale.isWordChar

theorem SpellsFloat.run {m : Option Text.Decimal} {cs : List Char} (h : SpellsFloat m cs) :
    WordRun cs := by
  have hunsigned : ∀ {m cs}, SpellsUnsigned m cs → WordRun cs := by
    intro m cs h
    cases h with
    | infinity | noNumber => exact .word (List.cons_ne_nil _ _) (List.all_eq_true.mp rfl)
    | magnitude h => exact h.run
  cases h with
  | bare h => exact hunsigned h
  | @signed sign cs hsign h =>
    have hword : Lexer.isWordChar sign = true := by rcases hsign with rfl | rfl <;> rfl
    exact (hunsigned h).prepend (List.forall_mem_singleton.mpr hword)

theorem SpellsInteger.run {n : Int} {cs : List Char} (h : SpellsInteger n cs) : WordRun cs := by
  have hnatural : ∀ {n cs}, SpellsNatural n cs → ∀ c ∈ cs, Lexer.isWordChar c = true := by
    rintro n cs ⟨ds, hds, _⟩
    exact hds.digits.isWordChar (by decide)
  cases h with
  | bare h =>
    refine .word ?_ (hnatural h)
    obtain ⟨ds, hds, _⟩ := h
    obtain ⟨c, tail, rfl, _⟩ := hds.head
    exact List.cons_ne_nil _ _
  | plus h | minus h =>
    exact .word (List.cons_ne_nil _ _) (List.forall_mem_cons.mpr ⟨rfl, hnatural h⟩)
  | @inBase mark base ds cs hbase h =>
    rcases cases_of_base hbase with ⟨rfl, rfl⟩ | ⟨rfl, rfl⟩ | ⟨rfl, rfl⟩ <;>
      exact .word (List.cons_ne_nil _ _) (List.forall_mem_cons.mpr ⟨rfl, List.forall_mem_cons.mpr
        ⟨rfl, h.isWordChar (by decide)⟩⟩)

theorem isWordChar_twoDigits {n : Nat} (h : n < 100) :
    ∀ c ∈ twoDigits n, Lexer.isWordChar c = true := fun c hc =>
  isWordChar_of_isDigit ((Text.natural?_eq_some.mp (natural?_twoDigits h)).2.1 c hc)

theorem SpellsDate.isWordChar {cs : List Char} (h : SpellsDate cs) :
    ∀ c ∈ cs, Lexer.isWordChar c = true := by
  cases h with
  | @date y m d hy hm hd =>
    have hdays := daysInMonth_lt y m
    have hyear := isWordChar_twoDigits (show y / 100 < 100 by omega)
    have hyear' := isWordChar_twoDigits (show y % 100 < 100 by omega)
    have hmonth := isWordChar_twoDigits (show m < 100 by omega)
    have hday := isWordChar_twoDigits (show d < 100 by omega)
    have hdash : Lexer.isWordChar '-' = true := rfl
    simp only [List.forall_mem_append, List.forall_mem_cons]
    exact ⟨hyear, hyear', hdash, hmonth, hdash, hday⟩

theorem SpellsTime.run {cs : List Char} (h : SpellsTime cs) : WordRun cs := by
  cases h with
  | @time h m seconds hh hm hseconds =>
    have hhour := isWordChar_twoDigits (show h < 100 by omega)
    have hminute := isWordChar_twoDigits (show m < 100 by omega)
    have hcolon : Lexer.isWordChar ':' = true := rfl
    have hne : ∀ {cs : List Char}, twoDigits h ++ cs ≠ [] := List.cons_ne_nil _ _
    cases hseconds with
    | none =>
      refine .word hne ?_
      simp only [List.forall_mem_append, List.forall_mem_cons, List.append_nil]
      exact ⟨hhour, hcolon, hminute⟩
    | @whole s hs =>
      have hsecond := isWordChar_twoDigits (show s < 100 by omega)
      refine .word hne ?_
      simp only [List.forall_mem_append, List.forall_mem_cons]
      exact ⟨hhour, hcolon, hminute, hcolon, hsecond⟩
    | @fraction s ds hs hds hdigits =>
      have hsecond := isWordChar_twoDigits (show s < 100 by omega)
      have hfront : WordRun (twoDigits h ++ ':' :: (twoDigits m ++ ':' :: twoDigits s)) := by
        refine .word hne ?_
        simp only [List.forall_mem_append, List.forall_mem_cons]
        exact ⟨hhour, hcolon, hminute, hcolon, hsecond⟩
      have hrun := hfront.join (Or.inl rfl)
        (.word hds fun d hd => isWordChar_of_isDigit (hdigits d hd))
      simpa using hrun

theorem SpellsOffset.isWordChar {cs : List Char} (h : SpellsOffset cs) :
    ∀ c ∈ cs, Lexer.isWordChar c = true := by
  cases h with
  | none => exact nofun
  | universal h => rcases h with rfl | rfl <;> exact List.forall_mem_singleton.mpr rfl
  | @hours sign h m hsign hh hm =>
    have hhour := isWordChar_twoDigits (show h < 100 by omega)
    have hminute := isWordChar_twoDigits (show m < 100 by omega)
    have hcolon : Lexer.isWordChar ':' = true := rfl
    have hsign : Lexer.isWordChar sign = true := by rcases hsign with rfl | rfl <;> rfl
    simp only [List.forall_mem_append, List.forall_mem_cons]
    exact ⟨hsign, hhour, hcolon, hminute⟩

theorem SpellsMoment.run {cs : List Char} (h : SpellsMoment cs) : WordRun cs := by
  have hdate : ∀ {cs}, SpellsDate cs → WordRun cs := by
    intro cs h
    refine .word ?_ h.isWordChar
    cases h
    exact List.cons_ne_nil _ _
  cases h with
  | date h => exact hdate h
  | time h => exact h.run
  | @both date time offset c h hc htime hoffset =>
    have hrest := htime.run.append hoffset.isWordChar
    have hletter : Lexer.isWordChar c = true →
        WordRun (date ++ c :: (time ++ offset)) := by
      intro hc
      have hword : ∀ d ∈ date ++ [c], Lexer.isWordChar d = true :=
        List.forall_mem_append.mpr ⟨h.isWordChar, List.forall_mem_singleton.mpr hc⟩
      simpa using hrest.prepend hword
    rcases hc with rfl | rfl | rfl
    · exact hletter rfl
    · exact hletter rfl
    · exact .join (Or.inr rfl) (hdate h) hrest

theorem SpellsWord.run {v : Scalar} {cs : List Char} (h : SpellsWord v cs) : WordRun cs := by
  cases h with
  | yes | no => exact .word (List.cons_ne_nil _ _) (List.all_eq_true.mp rfl)
  | integer h => exact h.run
  | float h => exact h.run
  | moment h => exact h.run

/-! ## Every number has a form -/

theorem spellsDigits_self {cs : List Char} (hne : cs ≠ []) (h : ∀ c ∈ cs, isDigit c = true) :
    SpellsDigits isDigit cs cs := by
  induction cs with
  | nil => exact absurd rfl hne
  | cons c cs ih =>
    obtain ⟨hc, hcs⟩ := List.forall_mem_cons.mp h
    cases cs with
    | nil => exact .last hc
    | cons d ds => exact .next hc (ih (List.cons_ne_nil _ _) hcs)

theorem spellsNatural_repr (n : Nat) : SpellsNatural n n.repr.toList := by
  have hne : n.repr.toList ≠ [] := by
    rw [Nat.toList_repr]
    exact Nat.toDigits_ne_nil
  refine ⟨_, ⟨spellsDigits_self hne fun c hc => Text.isDigit_of_mem_repr hc, ?_⟩,
    Text.writes_repr n⟩
  intro tail htail
  cases n with
  | zero => exact (List.cons.inj htail).2.symm
  | succ n => exact absurd (by rw [htail]; rfl) (Text.head?_repr_ne_zero n.succ_pos)

theorem exists_spellsInteger (n : Int) : ∃ cs, SpellsInteger n cs := by
  cases n with
  | ofNat n => exact ⟨_, .bare (spellsNatural_repr n)⟩
  | negSucc n => exact ⟨_, .minus (spellsNatural_repr (n + 1))⟩

end ShopQuery.Toml
