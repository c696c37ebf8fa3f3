-- How the tokens of a TOML text may be written: strings in their four forms, and the blanks,
-- comments and line ends between tokens. What is written so is read as the token, whatever follows,
-- as long as that does not go on with it.
import ShopQuery.Proofs.Numerals
import ShopQuery.Proofs.TomlLines

namespace ShopQuery.Toml

open Text (hexValue?)

/-! ## Blanks and comments -/

/-- Blanks, or nothing. -/
def IsBlanks (cs : List Char) : Prop := ∀ c ∈ cs, isBlank c = true

/-- A comment, or nothing. -/
inductive IsComment : List Char → Prop
  | none : IsComment []
  | sign {cs : List Char} (plain : ∀ c ∈ cs, isPlain c = true) : IsComment ('#' :: cs)

/-- Blanks over any number of lines, with comments on them. -/
inductive IsGap : List Char → Prop
  | blanks {cs : List Char} (h : IsBlanks cs) : IsGap cs
  | line {blanks comment lineEnd rest : List Char} (hblanks : IsBlanks blanks)
      (hcomment : IsComment comment) (hend : IsLineEnd lineEnd) (hrest : IsGap rest) :
    IsGap (blanks ++ (comment ++ lineEnd ++ rest))

/-! ## Strings on one line -/

/-- The characters that stand for one character between double quotes: the character itself, an
escape of two characters, or an escape with the number of the character in hexadecimal digits. -/
inductive SpellsChar : Char → List Char → Prop
  | plain {c : Char} (plain : isPlain c = true) (quote : c ≠ '\x22') (backslash : c ≠ '\x5c') :
    SpellsChar c [c]
  | short {e c : Char} (escape : escaped? e = some c) : SpellsChar c ['\x5c', e]
  | long {e c : Char} {digits : List Char} (width : escapeWidth? e = some digits.length)
      (hex : ∀ d ∈ digits, (hexValue? d).isSome = true) (value : valueIn 16 digits = c.toNat) :
    SpellsChar c ('\x5c' :: e :: digits)

/-- The characters that stand for characters in a row. -/
inductive SpellsChars : List Char → List Char → Prop
  | nil : SpellsChars [] []
  | cons {c : Char} {cs first rest : List Char} (hfirst : SpellsChar c first)
      (hrest : SpellsChars cs rest) : SpellsChars (c :: cs) (first ++ rest)

/-- The forms of a string on one line. Between single quotes every character stands for itself. -/
inductive SpellsText : String → List Char → Prop
  | double {s : String} {cs : List Char} (h : SpellsChars s.toList cs) :
    SpellsText s ('\x22' :: (cs ++ ['\x22']))
  | single {s : String} (plain : ∀ c ∈ s.toList, isPlain c = true ∧ c ≠ '\x27') :
    SpellsText s ('\x27' :: (s.toList ++ ['\x27']))

/-! ## Strings over several lines -/

/-- The characters that stand for characters between tripled quotes of a kind. -/
inductive SpellsPiece : Quote → List Char → List Char → Prop
  | lineEnd {q : Quote} {cs : List Char} (h : IsLineEnd cs) : SpellsPiece q cs cs
  | double {c : Char} {cs : List Char} (h : SpellsChar c cs) : SpellsPiece .double [c] cs
  | single {c : Char} (plain : isPlain c = true) (quote : c ≠ '\x27') :
    SpellsPiece .single [c] [c]

/-- Blanks and line ends. -/
inductive IsMargin : List Char → Prop
  | nil : IsMargin []
  | blank {c : Char} {rest : List Char} (h : isBlank c = true) (hrest : IsMargin rest) :
    IsMargin (c :: rest)
  | lineEnd {cs rest : List Char} (h : IsLineEnd cs) (hrest : IsMargin rest) : IsMargin (cs ++ rest)

/-- What stands here begins with neither a blank nor a line end. -/
def Flush (cs : List Char) : Prop := ∀ c ∈ cs.head?, isBlank c = false ∧ c ≠ '\n' ∧ c ≠ '\r'

/-- What stands behind tripled quotes, with the quotes that close the string. Up to two quotes in a
row belong to the string, also in front of the last three. A backslash takes away the line end
behind it, with all blanks and line ends that follow. -/
inductive SpellsBody : Quote → List Char → List Char → Prop
  | close {q : Quote} {n : Nat} (few : n ≤ 2) :
    SpellsBody q (List.replicate n q.char) (List.replicate (n + 3) q.char)
  | piece {q : Quote} {n : Nat} {s first t rest : List Char} (few : n ≤ 2)
      (hfirst : SpellsPiece q s first) (hrest : SpellsBody q t rest) :
    SpellsBody q (List.replicate n q.char ++ (s ++ t)) (List.replicate n q.char ++ (first ++ rest))
  | trim {n : Nat} {blanks lineEnd margin t rest : List Char} (few : n ≤ 2)
      (hblanks : IsBlanks blanks) (hend : IsLineEnd lineEnd) (hmargin : IsMargin margin)
      (hrest : SpellsBody .double t rest) (hflush : Flush rest) :
    SpellsBody .double (List.replicate n '\x22' ++ t)
      (List.replicate n '\x22' ++ ('\x5c' :: (blanks ++ (lineEnd ++ (margin ++ rest)))))

/-- The forms of a string between tripled quotes. A line end right behind the first ones is no part
of it. -/
inductive SpellsBlock : String → List Char → Prop
  | below {q : Quote} {s : String} {lineEnd cs : List Char} (hend : IsLineEnd lineEnd)
      (h : SpellsBody q s.toList cs) :
    SpellsBlock s (List.replicate 3 q.char ++ (lineEnd ++ cs))
  | beside {q : Quote} {s : String} {cs : List Char} (h : SpellsBody q s.toList cs)
      (hbeside : ∀ c ∈ cs.head?, c ≠ '\n' ∧ c ≠ '\r') :
    SpellsBlock s (List.replicate 3 q.char ++ cs)

/-! ## Reading tokens -/

/-- What is read up to here ends where one of these characters or nothing follows. -/
theorem tokens?_of_run {cs : List Char} {x : Lexer} {ts : List Token}
    (hrun : cs.foldlM Lexer.step? {} = some x) (hsettle : x.settle? = some ts) (rest : List Char)
    (hnext : ∀ c ∈ rest.head?, x.step? c = Lexer.start? ts c) :
    tokens? (cs ++ rest) = (tokens? rest).map (ts.reverse ++ ·) := by
  have htokens : tokens? (cs ++ rest) = (Lexer.finish? {} (cs ++ rest)).map List.reverse := rfl
  rw [htokens, Lexer.finish?_append hrun, Lexer.finish?_of_ended hsettle hnext,
    Lexer.finish?_nothing, Option.map_map]
  congr 1
  funext more
  simp

/-- The token of blanks, if there are any. -/
def blankTokens (cs : List Char) : List Token := if cs.isEmpty then [] else [.blank cs]

/-- Characters that a lexeme gathers one by one are all gathered. -/
theorem run_gathered {lexeme : List Char → Lexeme} {cs : List Char}
    (hstep : ∀ c ∈ cs, ∀ chars,
      Lexer.step? ⟨[], lexeme chars⟩ c = some ⟨[], lexeme (c :: chars)⟩) (chars : List Char) :
    cs.foldlM Lexer.step? ⟨[], lexeme chars⟩ = some ⟨[], lexeme (cs.reverse ++ chars)⟩ := by
  induction cs generalizing chars with
  | nil => rfl
  | cons c cs ih =>
    obtain ⟨hc, hcs⟩ := List.forall_mem_cons.mp hstep
    rw [List.foldlM_cons, hc chars]
    simpa using ih hcs (c :: chars)

/-- What stands here does not go on with blanks. -/
def Solid (cs : List Char) : Prop := ∀ c ∈ cs.head?, isBlank c = false

theorem solid_cons {c : Char} (h : isBlank c = false) (rest : List Char) : Solid (c :: rest) :=
  fun _ hd => Option.some.inj hd ▸ h

theorem tokens?_blanks {cs rest : List Char} (h : IsBlanks cs) (hsolid : Solid rest) :
    tokens? (cs ++ rest) = (tokens? rest).map (blankTokens cs ++ ·) := by
  cases cs with
  | nil => simp [blankTokens]
  | cons c cs =>
    obtain ⟨hc, hcs⟩ := List.forall_mem_cons.mp h
    have hstart : Lexer.step? {} c = some ⟨[], .blank [c]⟩ := by
      unfold isBlank at hc
      rw [Bool.or_eq_true, beq_iff_eq, beq_iff_eq] at hc
      rcases hc with rfl | rfl <;> rfl
    have hrun : (c :: cs).foldlM Lexer.step? {} = some ⟨[], .blank (cs.reverse ++ [c])⟩ := by
      rw [List.foldlM_cons, hstart]
      exact run_gathered (fun c hc chars => by simp [Lexer.step?, hcs c hc]) [c]
    have htokens := tokens?_of_run hrun rfl rest fun d hd => by
      simp [Lexer.step?, Lexer.settle?, hsolid d hd]
    simpa [blankTokens] using htokens

theorem ne_of_isPlain {c : Char} (h : isPlain c = true) (d : Char) (hd : isPlain d = false) :
    c ≠ d := by
  rintro rfl
  rw [h] at hd
  cases hd

theorem run_comment {cs : List Char} (h : ∀ c ∈ cs, isPlain c = true) :
    cs.foldlM Lexer.step? ⟨[], .comment⟩ = some ⟨[], .comment⟩ := by
  refine @run_gathered (fun _ => .comment) cs (fun c hc _ => ?_) []
  have hne := ne_of_isPlain (h c hc)
  simp [Lexer.step?, h c hc, hne '\n' rfl, hne '\r' rfl]

theorem tokens?_comment {cs : List Char} (h : IsComment cs) : tokens? cs = some [] := by
  cases h with
  | none => rfl
  | @sign cs plain =>
    have hrun : ('#' :: cs).foldlM Lexer.step? {} = some ⟨[], .comment⟩ := run_comment plain
    have hempty : tokens? [] = some [] := rfl
    have htokens := tokens?_of_run hrun rfl [] fun _ hc => nomatch hc
    simpa [hempty] using htokens

/-- A sign that is a token by itself. -/
theorem tokens?_sign {c : Char} {t : Token} (hstart : Lexer.start? [] c = some ⟨[t], .nothing⟩)
    (rest : List Char) : tokens? (c :: rest) = (tokens? rest).map ([t] ++ ·) := by
  have hrun : [c].foldlM Lexer.step? {} = some ⟨[t], .nothing⟩ := by
    rw [List.foldlM_cons]
    change (Lexer.start? [] c >>= _) = _
    rw [hstart]
    rfl
  exact tokens?_of_run hrun rfl rest fun _ _ => rfl

/-- What stands here goes on neither with a word nor with the quotes of a string. -/
def Stops (cs : List Char) : Prop :=
  ∀ c ∈ cs.head?, Lexer.isWordChar c = false ∧ ∀ q : Quote, c ≠ q.char

/-- The characters of a token, which is read where they stop. -/
structure Token.Reads (t : Token) (cs : List Char) : Prop where
  solid : ∀ rest, Solid (cs ++ rest)
  tokens : ∀ rest, Stops rest → tokens? (cs ++ rest) = (tokens? rest).map ([t] ++ ·)

/-! ## Words -/

theorem isBlank_of_isWordChar {c : Char} (h : Lexer.isWordChar c = true) : isBlank c = false := by
  unfold Lexer.isWordChar at h
  simpa using (Bool.and_eq_true_iff.mp h).1

theorem step?_word {c : Char} (h : Lexer.isWordChar c = true) :
    Lexer.step? {} c = some ⟨[], .word [c]⟩ := by
  change Lexer.start? [] c = _
  unfold Lexer.start?
  split
  case h_13 => rw [isBlank_of_isWordChar h, if_neg Bool.false_ne_true]
  all_goals cases h

theorem reads_word {cs : List Char} (hne : cs ≠ []) (h : ∀ c ∈ cs, Lexer.isWordChar c = true) :
    (Token.word cs).Reads cs := by
  obtain ⟨c, cs, rfl⟩ := List.exists_cons_of_ne_nil hne
  obtain ⟨hc, hcs⟩ := List.forall_mem_cons.mp h
  constructor
  case solid => exact fun rest => solid_cons (isBlank_of_isWordChar hc) _
  case tokens =>
    intro rest hrest
    have hrun : (c :: cs).foldlM Lexer.step? {} = some ⟨[], .word (cs.reverse ++ [c])⟩ := by
      rw [List.foldlM_cons, step?_word hc]
      exact run_gathered (fun c hc chars => by simp [Lexer.step?, hcs c hc]) [c]
    have htokens := tokens?_of_run hrun rfl rest fun d hd => by
      simp [Lexer.step?, Lexer.settle?, (hrest d hd).1]
    simpa using htokens

/-! ## Escapes -/

/-- The digits of a long escape up to its end. -/
theorem run_code (inBlock : Bool) {digits : List Char}
    (hex : ∀ d ∈ digits, (hexValue? d).isSome = true) (hne : digits ≠ []) (chars : List Char)
    (n : Nat) {c : Char}
    (value : digits.foldl (fun n d => 16 * n + (hexValue? d).getD 0) n = c.toNat) :
    digits.foldlM Lexer.step? ⟨[], .code inBlock chars digits.length n⟩
      = some ⟨[], .inside inBlock (c :: chars)⟩ := by
  induction digits generalizing n with
  | nil => exact absurd rfl hne
  | cons d digits ih =>
    obtain ⟨hd, hdigits⟩ := List.forall_mem_cons.mp hex
    obtain ⟨v, hv⟩ := Option.isSome_iff_exists.mp hd
    rw [List.foldl_cons, hv, Option.getD_some] at value
    rw [List.foldlM_cons]
    cases digits with
    | nil =>
      have hvalid : c.toNat.isValidChar := c.valid
      have hvalue : 16 * n + v = c.toNat := value
      simp [Lexer.step?, hv, hvalue, hvalid]
    | cons e digits =>
      have hstep : Lexer.step? ⟨[], .code inBlock chars (d :: e :: digits).length n⟩ d
          = some ⟨[], .code inBlock chars (e :: digits).length (16 * n + v)⟩ := by
        simp [Lexer.step?, hv]
      rw [hstep]
      exact ih hdigits (List.cons_ne_nil _ _) _ value

theorem escapeWidth?_ne_zero {e : Char} : escapeWidth? e ≠ some 0 := by
  unfold escapeWidth?
  split <;> simp

/-- A character that may stand for itself between double quotes is taken as it is. -/
theorem step?_plain (inBlock : Bool) {c : Char} (plain : isPlain c = true) (quote : c ≠ '\x22')
    (backslash : c ≠ '\x5c') (chars : List Char) :
    Lexer.step? ⟨[], .inside inBlock chars⟩ c = some ⟨[], .inside inBlock (c :: chars)⟩ := by
  cases inBlock with
  | false => simp [Lexeme.inside, Lexer.step?, Quote.char, plain, quote, backslash]
  | true =>
    simp [Lexeme.inside, Lexer.step?, Lexeme.extend?, Quote.char, plain, quote, backslash,
      ne_of_isPlain plain '\n' rfl, ne_of_isPlain plain '\r' rfl]

theorem step?_backslash (inBlock : Bool) (chars : List Char) :
    Lexer.step? ⟨[], .inside inBlock chars⟩ '\x5c' = some ⟨[], .escape inBlock chars⟩ := by
  cases inBlock <;> rfl

theorem run_char (inBlock : Bool) {c : Char} {cs : List Char} (h : SpellsChar c cs)
    (chars : List Char) : cs.foldlM Lexer.step? ⟨[], .inside inBlock chars⟩
      = some ⟨[], .inside inBlock (c :: chars)⟩ := by
  cases h with
  | plain plain quote backslash =>
    rw [List.foldlM_cons, step?_plain inBlock plain quote backslash]
    rfl
  | short escape =>
    rw [List.foldlM_cons, step?_backslash]
    simp [Lexer.step?, escape]
  | @long e c digits width hex value =>
    have hshort : escaped? e = none := by
      unfold escapeWidth? at width
      split at width
      case h_4 => cases width
      all_goals rfl
    have hne : digits ≠ [] := by
      rintro rfl
      exact escapeWidth?_ne_zero width
    have hopen : Lexer.step? ⟨[], .escape inBlock chars⟩ e
        = some ⟨[], .code inBlock chars digits.length 0⟩ := by
      simp [Lexer.step?, hshort, width]
    have hcode := run_code inBlock hex hne chars 0 value
    rw [List.foldlM_cons, step?_backslash]
    change List.foldlM Lexer.step? ⟨[], .escape inBlock chars⟩ (e :: digits) = _
    rw [List.foldlM_cons, hopen]
    exact hcode

theorem run_chars {s cs : List Char} (h : SpellsChars s cs) (chars : List Char) :
    cs.foldlM Lexer.step? ⟨[], .inside false chars⟩
      = some ⟨[], .inside false (s.reverse ++ chars)⟩ := by
  induction h generalizing chars with
  | nil => rfl
  | @cons c s first rest hfirst _ ih =>
    have hrest := ih (c :: chars)
    rw [List.foldlM_append, run_char false hfirst]
    simpa using hrest

theorem SpellsChar.head {c : Char} {cs : List Char} (h : SpellsChar c cs) :
    ∃ d tail, cs = d :: tail ∧ d ≠ '\x22' := by
  cases h with
  | plain _ quote _ => exact ⟨_, _, rfl, quote⟩
  | short _ => exact ⟨_, _, rfl, by decide⟩
  | long _ _ _ => exact ⟨_, _, rfl, by decide⟩

/-! ## Strings on one line -/

/-- Where the first character is read alike, the whole is. -/
theorem foldlM_of_head {x y : Lexer} {cs : List Char} (hne : cs ≠ [])
    (h : ∀ c ∈ cs.head?, x.step? c = y.step? c) :
    cs.foldlM Lexer.step? x = cs.foldlM Lexer.step? y := by
  obtain ⟨c, cs, rfl⟩ := List.exists_cons_of_ne_nil hne
  rw [List.foldlM_cons, List.foldlM_cons, h c rfl]

theorem Quote.step?_start (q : Quote) : Lexer.step? {} q.char = some ⟨[], .opened q⟩ := by
  cases q <;> rfl

/-- After the quote that opens a string its first character is read as any other one. -/
theorem step?_opened {q : Quote} {c : Char} (h : c ≠ q.char) :
    Lexer.step? ⟨[], .opened q⟩ c = Lexer.step? ⟨[], .text q []⟩ c := by
  simp [Lexer.step?, h]

theorem isBlank_quote (q : Quote) : isBlank q.char = false := by cases q <;> rfl

/-- A string of which the quote that closes it is no part. -/
theorem reads_quoted {q : Quote} {s cs : List Char} (hhead : ∀ c ∈ cs.head?, c ≠ q.char)
    (hrun : cs.foldlM Lexer.step? ⟨[], .text q []⟩ = some ⟨[], .text q s.reverse⟩) :
    (Token.text (String.ofList s)).Reads (q.char :: (cs ++ [q.char])) := by
  constructor
  case solid => exact fun rest => solid_cons (isBlank_quote q) _
  case tokens =>
    intro rest hrest
    by_cases hne : cs = []
    · subst hne
      obtain rfl : s = [] := by simpa using hrun
      have hopened : (q.char :: ([] ++ [q.char])).foldlM Lexer.step? {}
          = some ⟨[], .openedTwice q⟩ := by
        cases q <;> rfl
      exact tokens?_of_run hopened rfl rest fun d hd => by
        simp [Lexer.step?, Lexer.settle?, (hrest d hd).2 q]
    · have hclosed : (q.char :: (cs ++ [q.char])).foldlM Lexer.step? {}
          = some ⟨[.text (String.ofList s)], .nothing⟩ := by
        rw [List.foldlM_cons, q.step?_start]
        change List.foldlM Lexer.step? ⟨[], .opened q⟩ (cs ++ [q.char]) = _
        rw [List.foldlM_append, foldlM_of_head hne fun c hc => step?_opened (hhead c hc), hrun]
        simp [Lexer.step?]
      exact tokens?_of_run hclosed rfl rest fun _ _ => rfl

theorem reads_text {s : String} {cs : List Char} (h : SpellsText s cs) :
    (Token.text s).Reads cs := by
  obtain ⟨chars, rfl⟩ : ∃ chars, s = String.ofList chars := ⟨s.toList, String.ofList_toList.symm⟩
  cases h with
  | @double cs h =>
    rw [String.toList_ofList] at h
    have hrun := run_chars h []
    rw [List.append_nil] at hrun
    refine @reads_quoted .double _ _ (fun c hc => ?_) hrun
    cases h with
    | nil => cases hc
    | cons hfirst _ =>
      obtain ⟨d, tail, rfl, hd⟩ := hfirst.head
      obtain rfl := Option.some.inj hc
      exact hd
  | single plain =>
    rw [String.toList_ofList] at plain ⊢
    have hstep : ∀ c ∈ chars, ∀ before, Lexer.step? ⟨[], .text .single before⟩ c
        = some ⟨[], .text .single (c :: before)⟩ := by
      intro c hc before
      obtain ⟨hplain, hquote⟩ := plain c hc
      simp [Lexer.step?, Quote.char, hplain, hquote]
    have hrun := @run_gathered (.text .single) chars hstep []
    rw [List.append_nil] at hrun
    exact @reads_quoted .single _ _ (fun c hc => (plain c (List.mem_of_mem_head? hc)).2) hrun

/-! ## Strings over several lines -/

theorem IsLineEnd.head {cs : List Char} (h : IsLineEnd cs) :
    ∃ c tail, cs = c :: tail ∧ (c = '\n' ∨ c = '\r') := by
  rcases h with rfl | rfl
  · exact ⟨_, _, rfl, Or.inl rfl⟩
  · exact ⟨_, _, rfl, Or.inr rfl⟩

theorem Quote.ne_of_lineEnd {c : Char} (q : Quote) (h : c = '\n' ∨ c = '\r') : c ≠ q.char := by
  rcases h with rfl | rfl <;> cases q <;> decide

/-- Up to two quotes inside of a block belong to it if they are followed by something else. -/
theorem run_quotes (q : Quote) {n : Nat} (few : n ≤ 2) (chars : List Char) {c : Char}
    (hc : c ≠ q.char) (cs : List Char) :
    (List.replicate n q.char ++ c :: cs).foldlM Lexer.step? ⟨[], .block q chars⟩
      = (c :: cs).foldlM Lexer.step? ⟨[], .block q (List.replicate n q.char ++ chars)⟩ := by
  have hblock : Lexer.step? ⟨[], .block q chars⟩ q.char = some ⟨[], .closing q chars 1⟩ := by
    simp [Lexer.step?]
  have hclosing : Lexer.step? ⟨[], .closing q chars 1⟩ q.char = some ⟨[], .closing q chars 2⟩ := by
    simp [Lexer.step?]
  have hback : ∀ count, count < 3 → Lexer.step? ⟨[], .closing q chars count⟩ c
      = Lexer.step? ⟨[], .block q (List.replicate count q.char ++ chars)⟩ c := by
    intro count hcount
    simp [Lexer.step?, hc, show ¬3 ≤ count by omega]
  obtain rfl | rfl | rfl : n = 0 ∨ n = 1 ∨ n = 2 := by omega
  · rfl
  · simp [hblock, hback]
  · simp [List.replicate, hblock, hclosing, hback]

theorem SpellsPiece.head {q : Quote} {s cs : List Char} (h : SpellsPiece q s cs) :
    ∃ c tail, cs = c :: tail ∧ c ≠ q.char := by
  cases h with
  | lineEnd h =>
    obtain ⟨c, tail, rfl, hc⟩ := h.head
    exact ⟨c, tail, rfl, q.ne_of_lineEnd hc⟩
  | double h => exact h.head
  | single _ quote => exact ⟨_, _, rfl, quote⟩

theorem run_piece {q : Quote} {s cs : List Char} (h : SpellsPiece q s cs) (chars : List Char) :
    cs.foldlM Lexer.step? ⟨[], .block q chars⟩ = some ⟨[], .block q (s.reverse ++ chars)⟩ := by
  cases h with
  | lineEnd h => rcases h with rfl | rfl <;> cases q <;> rfl
  | double h => exact run_char true h chars
  | single plain quote =>
    simp [Lexer.step?, Lexeme.extend?, Quote.char, plain, quote, ne_of_isPlain plain '\n' rfl,
      ne_of_isPlain plain '\r' rfl]

theorem run_margin {cs : List Char} (h : IsMargin cs) (chars : List Char) :
    cs.foldlM Lexer.step? ⟨[], .gap chars true⟩ = some ⟨[], .gap chars true⟩ := by
  induction h with
  | nil => rfl
  | @blank c rest h _ ih =>
    have hstep : Lexer.step? ⟨[], .gap chars true⟩ c = some ⟨[], .gap chars true⟩ := by
      simp [Lexer.step?, h]
    rw [List.foldlM_cons, hstep]
    exact ih
  | lineEnd h _ ih =>
    have hend : ∀ cs, IsLineEnd cs →
        cs.foldlM Lexer.step? ⟨[], .gap chars true⟩ = some ⟨[], .gap chars true⟩ := by
      rintro cs (rfl | rfl) <;> rfl
    rw [List.foldlM_append, hend _ h]
    exact ih

/-- A backslash, blanks and a line end. -/
theorem run_trim {blanks lineEnd margin : List Char} (hblanks : IsBlanks blanks)
    (hend : IsLineEnd lineEnd) (hmargin : IsMargin margin) (chars : List Char) :
    ('\x5c' :: (blanks ++ (lineEnd ++ margin))).foldlM Lexer.step? ⟨[], .block .double chars⟩
      = some ⟨[], .gap chars true⟩ := by
  have hopen : Lexer.step? ⟨[], .block .double chars⟩ '\x5c' = some ⟨[], .escape true chars⟩ := rfl
  have hline : (lineEnd ++ margin).foldlM Lexer.step? ⟨[], .gap chars false⟩
      = some ⟨[], .gap chars true⟩ := by
    have hended : lineEnd.foldlM Lexer.step? ⟨[], .gap chars false⟩
        = some ⟨[], .gap chars true⟩ := by
      rcases hend with rfl | rfl <;> rfl
    rw [List.foldlM_append, hended]
    exact run_margin hmargin chars
  rw [List.foldlM_cons, hopen]
  change List.foldlM Lexer.step? ⟨[], .escape true chars⟩ _ = _
  cases blanks with
  | nil =>
    rw [List.nil_append, ← hline]
    refine foldlM_of_head ?_ fun c hc => ?_
    · rcases hend with rfl | rfl <;> simp
    · obtain ⟨d, tail, rfl, hd⟩ := hend.head
      obtain rfl := Option.some.inj hc
      rcases hd with rfl | rfl <;> rfl
  | cons c blanks =>
    obtain ⟨hc, hblanks⟩ := List.forall_mem_cons.mp hblanks
    have hblank : Lexer.step? ⟨[], .escape true chars⟩ c = some ⟨[], .gap chars false⟩ := by
      unfold isBlank at hc
      rw [Bool.or_eq_true, beq_iff_eq, beq_iff_eq] at hc
      rcases hc with rfl | rfl <;> rfl
    have hgap := @run_gathered (fun _ => .gap chars false) blanks
      (fun c hc _ => by simp [Lexer.step?, hblanks c hc]) []
    rw [List.cons_append, List.foldlM_cons, hblank]
    change List.foldlM Lexer.step? ⟨[], .gap chars false⟩ _ = _
    rw [List.foldlM_append, hgap]
    exact hline

theorem SpellsBody.ne_nil {q : Quote} {s cs : List Char} (h : SpellsBody q s cs) : cs ≠ [] := by
  cases h with
  | close _ => simp [List.replicate_succ]
  | piece _ hfirst _ =>
    obtain ⟨c, tail, rfl, _⟩ := hfirst.head
    simp
  | trim => simp

/-- The lexer has read a block up to its end, which shows at what follows. -/
def IsBlockEnd (q : Quote) (s : List Char) (x : Lexer) : Prop :=
  x.settle? = some [.block (String.ofList s)]
    ∧ ∀ c, c ≠ q.char → x.step? c = Lexer.start? [.block (String.ofList s)] c

theorem run_close (q : Quote) {n : Nat} (few : n ≤ 2) (chars : List Char) :
    ∃ x, (List.replicate (n + 3) q.char).foldlM Lexer.step? ⟨[], .block q chars⟩ = some x
      ∧ IsBlockEnd q (chars.reverse ++ List.replicate n q.char) x := by
  have hblock : Lexer.step? ⟨[], .block q chars⟩ q.char = some ⟨[], .closing q chars 1⟩ := by
    simp [Lexer.step?]
  have hclosing : ∀ count, count < 4 → Lexer.step? ⟨[], .closing q chars count⟩ q.char
      = some ⟨[], .closing q chars (count + 1)⟩ := by
    intro count hcount
    simp [Lexer.step?, hcount]
  have hlast : Lexer.step? ⟨[], .closing q chars 4⟩ q.char
      = some ⟨[Lexer.blockToken q chars 5], .nothing⟩ := by
    simp [Lexer.step?]
  obtain rfl | rfl | rfl : n = 0 ∨ n = 1 ∨ n = 2 := by omega
  · refine ⟨⟨[], .closing q chars 3⟩, by simp [List.replicate, hblock, hclosing], rfl, ?_⟩
    intro c hc
    simp [Lexer.step?, hc, Lexer.settle?, Lexer.blockToken]
  · refine ⟨⟨[], .closing q chars 4⟩, by simp [List.replicate, hblock, hclosing], rfl, ?_⟩
    intro c hc
    simp [Lexer.step?, hc, Lexer.settle?, Lexer.blockToken]
  · refine ⟨⟨[Lexer.blockToken q chars 5], .nothing⟩, ?_, rfl, fun _ _ => rfl⟩
    simp [List.replicate, hblock, hclosing, hlast]

/-- Behind the blanks and line ends that a backslash takes away a block goes on as it is. -/
theorem step?_gap {chars : List Char} {c : Char} (hblank : isBlank c = false) (hfeed : c ≠ '\n')
    (hreturn : c ≠ '\r') : Lexer.step? ⟨[], .gap chars true⟩ c
      = Lexer.step? ⟨[], .block .double chars⟩ c := by
  simp [Lexer.step?, Quote.char, hblank, hfeed, hreturn]

/-- The body of a block, behind characters of it that have been read. -/
theorem run_body {q : Quote} {s cs : List Char} (h : SpellsBody q s cs) (chars : List Char) :
    ∃ x, cs.foldlM Lexer.step? ⟨[], .block q chars⟩ = some x
      ∧ IsBlockEnd q (chars.reverse ++ s) x := by
  induction h generalizing chars with
  | @close q n few => exact run_close q few chars
  | @piece q n s first t rest few hfirst hrest ih =>
    obtain ⟨x, hx, hend⟩ := ih (s.reverse ++ (List.replicate n q.char ++ chars))
    obtain ⟨c, tail, rfl, hc⟩ := hfirst.head
    refine ⟨x, ?_, by simpa using hend⟩
    rw [List.cons_append, run_quotes q few chars hc, ← List.cons_append, List.foldlM_append,
      run_piece hfirst]
    exact hx
  | @trim n blanks lineEnd margin t rest few hblanks hend hmargin hrest hflush ih =>
    obtain ⟨x, hx, hlast⟩ := ih (List.replicate n '\x22' ++ chars)
    refine ⟨x, ?_, by simpa using hlast⟩
    have htrim := run_trim hblanks hend hmargin (List.replicate n '\x22' ++ chars)
    have hgap : rest.foldlM Lexer.step? ⟨[], .gap (List.replicate n '\x22' ++ chars) true⟩
        = some x := by
      rw [← hx]
      exact foldlM_of_head hrest.ne_nil fun c hc =>
        step?_gap (hflush c hc).1 (hflush c hc).2.1 (hflush c hc).2.2
    have hbackslash : '\x5c' ≠ Quote.double.char := by decide
    calc (List.replicate n '\x22' ++ '\x5c' :: (blanks ++ (lineEnd ++ (margin ++ rest)))).foldlM
            Lexer.step? ⟨[], .block .double chars⟩
        = ('\x5c' :: (blanks ++ (lineEnd ++ margin)) ++ rest).foldlM Lexer.step?
            ⟨[], .block .double (List.replicate n '\x22' ++ chars)⟩ := by
          rw [List.cons_append, List.append_assoc, List.append_assoc]
          exact run_quotes .double few chars hbackslash _
      _ = some x := by
          rw [List.foldlM_append, htrim]
          exact hgap

/-- A body whose first character is read as inside of a block. -/
theorem reads_body {q : Quote} {s : String} {opening cs : List Char} {x : Lexeme}
    (hopen : opening.foldlM Lexer.step? {} = some ⟨[], x⟩) (h : SpellsBody q s.toList cs)
    (hsolid : ∀ rest, Solid (opening ++ rest))
    (hx : ∀ c ∈ cs.head?, Lexer.step? ⟨[], x⟩ c = Lexer.step? ⟨[], .block q []⟩ c) :
    (Token.block s).Reads (opening ++ cs) := by
  constructor
  case solid =>
    intro rest
    rw [List.append_assoc]
    exact hsolid (cs ++ rest)
  case tokens =>
    intro rest hrest
    obtain ⟨y, hy, hend⟩ := run_body h []
    rw [List.reverse_nil, List.nil_append, IsBlockEnd, String.ofList_toList] at hend
    have hrun : (opening ++ cs).foldlM Lexer.step? {} = some y := by
      rw [List.foldlM_append, hopen, ← hy]
      exact foldlM_of_head h.ne_nil hx
    exact tokens?_of_run hrun hend.1 rest fun c hc => hend.2 c ((hrest c hc).2 q)

theorem reads_block {s : String} {cs : List Char} (h : SpellsBlock s cs) :
    (Token.block s).Reads cs := by
  have hsolid : ∀ (q : Quote) rest, Solid (List.replicate 3 q.char ++ rest) :=
    fun q _ => solid_cons (isBlank_quote q) _
  cases h with
  | @below q s lineEnd cs hend h =>
    have hopen : (List.replicate 3 q.char ++ lineEnd).foldlM Lexer.step? {}
        = some ⟨[], .block q []⟩ := by
      rcases hend with rfl | rfl <;> cases q <;> rfl
    rw [← List.append_assoc]
    refine reads_body hopen h (fun rest => ?_) fun _ _ => rfl
    rw [List.append_assoc]
    exact hsolid q _
  | @beside q s cs h hbeside =>
    have hopen : (List.replicate 3 q.char).foldlM Lexer.step? {} = some ⟨[], .blockStart q⟩ := by
      cases q <;> rfl
    refine reads_body hopen h (hsolid q) fun c hc => ?_
    obtain ⟨hfeed, hreturn⟩ := hbeside c hc
    simp [Lexer.step?, hfeed, hreturn]

/-! ## Where tokens stop -/

theorem stops_nil : Stops [] := fun _ hc => nomatch hc

theorem stops_cons {c : Char} (hc : c ∈ Lexer.delimiters) (hquote : ∀ q : Quote, c ≠ q.char)
    (rest : List Char) : Stops (c :: rest) := by
  rintro d hd
  obtain rfl := Option.some.inj hd
  exact ⟨by simp [Lexer.isWordChar, hc], hquote⟩

theorem stops_blanks {cs rest : List Char} (h : IsBlanks cs) (hrest : Stops rest) :
    Stops (cs ++ rest) := by
  cases cs with
  | nil => exact hrest
  | cons c cs =>
    have hc : isBlank c = true := h c List.mem_cons_self
    rintro d hd
    obtain rfl := Option.some.inj hd
    refine ⟨by simp [Lexer.isWordChar, hc], fun q => ?_⟩
    rintro rfl
    rw [isBlank_quote q] at hc
    cases hc

theorem stops_sharp (rest : List Char) : Stops ('#' :: rest) :=
  stops_cons (by decide) (by rintro (_ | _) <;> decide) rest

theorem stops_comment {cs rest : List Char} (h : IsComment cs) (hrest : Stops rest) :
    Stops (cs ++ rest) := by
  cases h with
  | none => exact hrest
  | sign _ => exact stops_sharp _

theorem solid_comment {cs rest : List Char} (h : IsComment cs) (hrest : Solid rest) :
    Solid (cs ++ rest) := by
  cases h with
  | none => exact hrest
  | sign _ => exact solid_cons rfl _

theorem IsComment.stops {cs : List Char} (h : IsComment cs) : Stops cs := by
  have happend := @stops_comment cs [] h stops_nil
  rwa [List.append_nil] at happend

theorem IsComment.solid {cs : List Char} (h : IsComment cs) : Solid cs := by
  have happend := @solid_comment cs [] h fun _ hc => nomatch hc
  rwa [List.append_nil] at happend

theorem stops_lineEnd {cs : List Char} (h : IsLineEnd cs) (rest : List Char) :
    Stops (cs ++ rest) := by
  rcases h with rfl | rfl <;> exact stops_cons (by decide) (by rintro (_ | _) <;> decide) _

theorem solid_lineEnd {cs : List Char} (h : IsLineEnd cs) (rest : List Char) :
    Solid (cs ++ rest) := by
  rcases h with rfl | rfl <;> exact solid_cons rfl _

theorem stops_gap {cs rest : List Char} (h : IsGap cs) (hrest : Stops rest) :
    Stops (cs ++ rest) := by
  cases h with
  | blanks h => exact stops_blanks h hrest
  | line hblanks hcomment hend _ =>
    rw [List.append_assoc, List.append_assoc, List.append_assoc]
    exact stops_blanks hblanks (stops_comment hcomment (stops_lineEnd hend _))

/-- A comment and a line end. -/
theorem tokens?_line {comment lineEnd : List Char} (hcomment : IsComment comment)
    (hend : IsLineEnd lineEnd) (rest : List Char) :
    tokens? (comment ++ (lineEnd ++ rest)) = (tokens? rest).map ([.newline] ++ ·) := by
  rw [← List.append_assoc]
  exact tokens?_lines (tokens?_comment hcomment) hend rest

/-! ## Every string has a form -/

/-- What may not stand for itself has a number of two hexadecimal digits. -/
theorem lt_of_not_plain {c : Char} (h : ¬(isPlain c = true ∧ c ≠ '\x22' ∧ c ≠ '\x5c')) :
    c.toNat < 256 := by
  by_contra hlarge
  refine h ⟨?_, ?_, ?_⟩
  · have hlow : 0x20 ≤ c.toNat := by omega
    have hdelete : c.toNat ≠ 0x7F := by omega
    simp [isPlain, hlow, hdelete]
  · rintro rfl
    exact hlarge (by decide)
  · rintro rfl
    exact hlarge (by decide)

theorem exists_spellsChar (c : Char) : ∃ cs, SpellsChar c cs := by
  by_cases h : isPlain c = true ∧ c ≠ '\x22' ∧ c ≠ '\x5c'
  · exact ⟨_, .plain h.1 h.2.1 h.2.2⟩
  · have hc := lt_of_not_plain h
    have hzero : hexValue? '0' = some 0 := rfl
    have hhigh := Text.hexValue?_hexDigit (n := c.toNat / 16) (by omega)
    have hlow := Text.hexValue?_hexDigit (n := c.toNat % 16) (by omega)
    refine ⟨_, @SpellsChar.long 'u' c ['0', '0', Text.hexDigit (c.toNat / 16),
      Text.hexDigit (c.toNat % 16)] rfl ?_ ?_⟩
    · simp [hzero, hhigh, hlow]
    · simp [valueIn, hzero, hhigh, hlow]
      omega

theorem exists_spellsText (s : String) : ∃ cs, SpellsText s cs := by
  have hchars : ∀ chars : List Char, ∃ cs, SpellsChars chars cs := by
    intro chars
    induction chars with
    | nil => exact ⟨_, .nil⟩
    | cons c chars ih =>
      obtain ⟨first, hfirst⟩ := exists_spellsChar c
      obtain ⟨rest, hrest⟩ := ih
      exact ⟨_, .cons hfirst hrest⟩
  obtain ⟨cs, hcs⟩ := hchars s.toList
  exact ⟨_, .double hcs⟩

end ShopQuery.Toml
