-- How JSON tokens may be spelled, and that the reader of tokens finds in a text the tokens that it
-- spells: each character of a string in any of its forms, and any space between two tokens.
import Mathlib.Data.Fintype.Basic
import Mathlib.Tactic.FinCases
import ShopQuery.Json.Printer
import ShopQuery.Json.Token
import ShopQuery.Proofs.Numerals

namespace ShopQuery.Json

open Text (isDigit hexValue?)

/-! ## Strings -/

/-- The characters that stand for a piece of a string: the character itself, an escape of two
characters, or an escape of four hexadecimal digits. -/
inductive Piece.Spelled : Piece → List Char → Prop
  | plain {c : Char} (control : 0x20 ≤ c.toNat) (quote : c ≠ '\x22') (backslash : c ≠ '\x5c') :
    Spelled (.char c) [c]
  | short {e c : Char} (escape : escaped? e = some c) : Spelled (.char c) ['\x5c', e]
  | long {a b c d : Char} {w x y z : Nat} (ha : hexValue? a = some w) (hb : hexValue? b = some x)
      (hc : hexValue? c = some y) (hd : hexValue? d = some z) :
    Spelled (.unit (16 * (16 * (16 * w + x) + y) + z)) ['\x5c', 'u', a, b, c, d]

/-- The characters that stand for pieces in a row. -/
inductive SpellsPieces : List Piece → List Char → Prop
  | nil : SpellsPieces [] []
  | cons {p : Piece} {ps : List Piece} {cs rest : List Char} (first : p.Spelled cs)
      (others : SpellsPieces ps rest) : SpellsPieces (p :: ps) (cs ++ rest)

/-! ## Numbers -/

/-- One or more digits. -/
def IsDigits (cs : List Char) : Prop := cs ≠ [] ∧ ∀ c ∈ cs, isDigit c = true

/-- The part of a number before its point: no zero stands in front of another digit. -/
inductive IsWhole : List Char → Prop
  | zero : IsWhole ['0']
  | digits {c : Char} {cs : List Char} (first : isDigit c = true) (nonzero : c ≠ '0')
      (others : ∀ d ∈ cs, isDigit d = true) : IsWhole (c :: cs)

inductive IsFraction : List Char → Prop
  | none : IsFraction []
  | point {cs : List Char} (digits : IsDigits cs) : IsFraction ('.' :: cs)

inductive IsExponent : List Char → Prop
  | none : IsExponent []
  | bare {e : Char} {cs : List Char} (mark : e = 'e' ∨ e = 'E') (digits : IsDigits cs) :
    IsExponent (e :: cs)
  | signed {e s : Char} {cs : List Char} (mark : e = 'e' ∨ e = 'E') (sign : s = '+' ∨ s = '-')
      (digits : IsDigits cs) : IsExponent (e :: s :: cs)

/-- A number: a whole part, behind a minus sign or not, then a fraction and an exponent if it has
them. -/
inductive IsNumber : List Char → Prop
  | bare {whole fraction exponent : List Char} (hw : IsWhole whole) (hf : IsFraction fraction)
      (he : IsExponent exponent) : IsNumber (whole ++ fraction ++ exponent)
  | minus {whole fraction exponent : List Char} (hw : IsWhole whole) (hf : IsFraction fraction)
      (he : IsExponent exponent) : IsNumber ('-' :: (whole ++ fraction ++ exponent))

/-! ## Tokens -/

/-- The characters that stand for a token. -/
inductive Token.Spelled : Token → List Char → Prop
  | openObject : Spelled .openObject ['\x7b']
  | closeObject : Spelled .closeObject ['\x7d']
  | openArray : Spelled .openArray ['[']
  | closeArray : Spelled .closeArray [']']
  | colon : Spelled .colon [':']
  | comma : Spelled .comma [',']
  | null : Spelled .null ['n', 'u', 'l', 'l']
  | true : Spelled (.bool true) ['t', 'r', 'u', 'e']
  | false : Spelled (.bool false) ['f', 'a', 'l', 's', 'e']
  | number {cs : List Char} (h : IsNumber cs) : Spelled (.number (String.ofList cs)) cs
  | string {pieces : List Piece} {cs : List Char} (h : SpellsPieces pieces cs) :
    Spelled (.ofPieces pieces) ('\x22' :: (cs ++ ['\x22']))

/-- The token has no end of its own: it goes on until another character ends it. -/
def Token.isOpen : Token → Bool
  | null | bool _ | number _ => true
  | _ => false

/-- The characters that end a word or a number. -/
def breaks : List Char :=
  [' ', '\t', '\n', '\r', '\x7b', '\x7d', '[', ']', ':', ',', '\x22']

/-- Nothing follows, or a character that ends a word or a number. -/
def Breaks (cs : List Char) : Prop := ∀ c ∈ cs.head?, c ∈ breaks

/-- The characters that stand for tokens in a row, with any space around each of them. -/
inductive Spells : List Token → List Char → Prop
  | nil : Spells [] []
  | space {c : Char} {ts : List Token} {cs : List Char} (hc : isSpace c = true)
      (others : Spells ts cs) : Spells ts (c :: cs)
  | cons {t : Token} {ts : List Token} {cs rest : List Char} (first : t.Spelled cs)
      (others : Spells ts rest) (ends : t.isOpen = true → Breaks rest) :
    Spells (t :: ts) (cs ++ rest)

/-! ## Reading strings -/

namespace Lexer

theorem run_piece {p : Piece} {cs : List Char} (h : p.Spelled cs) (ts : List Token)
    (ps : List Piece) :
    cs.foldlM step? ⟨ts, .string ps⟩ = some ⟨ts, .string (p :: ps)⟩ := by
  cases h with
  | plain control quote backslash =>
    simp [step?, quote, backslash, control]
  | short escape =>
    rename_i e c
    have hu : e ≠ 'u' := by
      rintro rfl
      cases escape
    simp [step?, hu, escape]
  | long ha hb hc hd =>
    simp [step?, ha, hb, hc, hd]

theorem run_pieces {ps : List Piece} {cs : List Char} (h : SpellsPieces ps cs) (ts : List Token)
    (done : List Piece) :
    cs.foldlM step? ⟨ts, .string done⟩ = some ⟨ts, .string (ps.reverse ++ done)⟩ := by
  induction h generalizing done with
  | nil => rfl
  | cons first _ ih =>
    rw [List.foldlM_append, run_piece first]
    simp [ih]

end Lexer

/-! ## Reading numbers -/

namespace NumberStage

theorem stay_digits {stage : NumberStage}
    (more : ∀ c, isDigit c = true → stage.next? c = some stage)
    {cs : List Char} (h : ∀ c ∈ cs, isDigit c = true) : cs.foldlM next? stage = some stage := by
  induction cs with
  | nil => rfl
  | cons c cs ih =>
    rw [List.forall_mem_cons] at h
    rw [List.foldlM_cons, more c h.1]
    exact ih h.2

/-- Digits lead from one stage to another that digits do not lead out of. -/
theorem run_digits {start goal : NumberStage}
    (first : ∀ c, isDigit c = true → start.next? c = some goal)
    (more : ∀ c, isDigit c = true → goal.next? c = some goal) {cs : List Char} (h : IsDigits cs) :
    cs.foldlM next? start = some goal := by
  obtain ⟨hne, hcs⟩ := h
  obtain ⟨c, ds, rfl⟩ := List.exists_cons_of_ne_nil hne
  rw [List.forall_mem_cons] at hcs
  rw [List.foldlM_cons, first c hcs.1]
  exact stay_digits more hcs.2

theorem run_whole {cs : List Char} (h : IsWhole cs) :
    ∃ next, cs.foldlM next? minus = some next ∧ (next = zero ∨ next = whole) := by
  cases h with
  | zero => exact ⟨zero, rfl, Or.inl rfl⟩
  | @digits c cs first nonzero others =>
    have hfirst : minus.next? c = some whole := by simp [next?, first, nonzero]
    refine ⟨whole, ?_, Or.inr rfl⟩
    rw [List.foldlM_cons, hfirst]
    exact stay_digits (fun c hc => by simp [next?, hc]) others

theorem run_fraction {cs : List Char} (h : IsFraction cs) {stage : NumberStage}
    (hs : stage = zero ∨ stage = whole) :
    ∃ next, cs.foldlM next? stage = some next ∧ (next = zero ∨ next = whole ∨ next = fraction) := by
  cases h with
  | none => exact ⟨stage, rfl, by tauto⟩
  | point digits =>
    have hpoint : stage.next? '.' = some point := by rcases hs with rfl | rfl <;> rfl
    refine ⟨fraction, ?_, Or.inr (Or.inr rfl)⟩
    rw [List.foldlM_cons, hpoint]
    exact run_digits (fun c hc => by simp [next?, hc]) (fun c hc => by simp [next?, hc]) digits

theorem run_exponent {cs : List Char} (h : IsExponent cs) {stage : NumberStage}
    (hs : stage = zero ∨ stage = whole ∨ stage = fraction) :
    ∃ next, cs.foldlM next? stage = some next ∧ next.isComplete = true := by
  have hmark : ∀ e, e = 'e' ∨ e = 'E' → stage.next? e = some mark := by
    rintro e (rfl | rfl) <;> rcases hs with rfl | rfl | rfl <;> rfl
  have hmore : ∀ c, isDigit c = true → exponent.next? c = some exponent :=
    fun c hc => by simp [next?, hc]
  cases h with
  | none => exact ⟨stage, rfl, by rcases hs with rfl | rfl | rfl <;> rfl⟩
  | bare he digits =>
    refine ⟨exponent, ?_, rfl⟩
    rw [List.foldlM_cons, hmark _ he]
    exact run_digits (fun c hc => by simp [next?, hc]) hmore digits
  | signed he hsign digits =>
    have hnext : ∀ s, s = '+' ∨ s = '-' → mark.next? s = some sign := by
      rintro s (rfl | rfl) <;> rfl
    refine ⟨exponent, ?_, rfl⟩
    rw [List.foldlM_cons, hmark _ he]
    change List.foldlM next? mark _ = _
    rw [List.foldlM_cons, hnext _ hsign]
    exact run_digits (fun c hc => by simp [next?, hc]) hmore digits

/-- The characters of a number behind its minus sign. -/
theorem run_unsigned {ws fs es : List Char} (hw : IsWhole ws) (hf : IsFraction fs)
    (he : IsExponent es) :
    ∃ next, (ws ++ fs ++ es).foldlM next? minus = some next ∧ next.isComplete = true := by
  obtain ⟨afterWhole, hwhole, hs⟩ := run_whole hw
  obtain ⟨afterFraction, hfraction, hs⟩ := run_fraction hf hs
  obtain ⟨afterExponent, hexponent, hcomplete⟩ := run_exponent he hs
  refine ⟨afterExponent, ?_, hcomplete⟩
  rw [List.foldlM_append, List.foldlM_append, hwhole]
  change (List.foldlM next? afterWhole fs >>= _) = _
  rw [hfraction]
  exact hexponent

end NumberStage

namespace Lexer

theorem run_number {cs ds : List Char} {stage next : NumberStage}
    (h : cs.foldlM NumberStage.next? stage = some next) (ts : List Token) :
    cs.foldlM step? ⟨ts, .number stage ds⟩ = some ⟨ts, .number next (cs.reverse ++ ds)⟩ := by
  induction cs generalizing stage ds with
  | nil =>
    cases h
    rfl
  | cons c cs ih =>
    rw [List.foldlM_cons] at h
    obtain ⟨between, hc, hrest⟩ := Option.bind_eq_some_iff.mp h
    have hstep : step? ⟨ts, .number stage ds⟩ c = some ⟨ts, .number between (c :: ds)⟩ := by
      simp [step?, hc]
    have hread : cs.foldlM step? ⟨ts, .number between (c :: ds)⟩
        = some ⟨ts, .number next (cs.reverse ++ c :: ds)⟩ := ih hrest
    rw [List.foldlM_cons, hstep]
    simpa using hread

/-- Where no token is being read, a number begins as behind a minus sign. -/
theorem start?_of_next? {c : Char} {stage : NumberStage}
    (h : NumberStage.minus.next? c = some stage) (ts : List Token) :
    start? ts c = some ⟨ts, .number stage [c]⟩ := by
  by_cases hzero : c = '0'
  · subst hzero
    cases h
    rfl
  · have hdigit : isDigit c = true := by
      by_contra hdigit
      simp [NumberStage.next?, hzero, hdigit] at h
    obtain rfl : NumberStage.whole = stage := by
      simpa [NumberStage.next?, hzero, hdigit] using h
    obtain ⟨d, rfl⟩ := Text.exists_digitChar hdigit
    fin_cases d
    · exact absurd rfl hzero
    all_goals rfl

/-! ## Reading tokens -/

/-- These tokens have been read, and a character that ends words and numbers is read as if it
stood behind them. -/
structure HasRead (x : Lexer) (tokens : List Token) : Prop where
  settle : x.settle? = some tokens
  step : ∀ c ∈ breaks, x.step? c = start? tokens c

theorem hasRead_nothing (ts : List Token) : HasRead ⟨ts, .nothing⟩ ts := ⟨rfl, fun _ _ => rfl⟩

theorem hasRead_word {letters : List Char} {t : Token}
    (h : Token.ofWord? letters.reverse = some t) (ts : List Token) :
    HasRead ⟨ts, .word letters⟩ (t :: ts) := by
  have hletter : ∀ c ∈ breaks, ('a' ≤ c && c ≤ 'z') = false := by simp [breaks]
  have hsettle : settle? ⟨ts, .word letters⟩ = some (t :: ts) := by simp [settle?, h]
  refine ⟨hsettle, fun c hc => ?_⟩
  simp [step?, hletter c hc, hsettle]

theorem hasRead_number {stage : NumberStage} (h : stage.isComplete = true) (digits : List Char)
    (ts : List Token) :
    HasRead ⟨ts, .number stage digits⟩ (.number (String.ofList digits.reverse) :: ts) := by
  have hnext : ∀ c ∈ breaks, stage.next? c = none := by
    cases stage <;> simp [breaks, NumberStage.next?, isDigit]
  have hsettle : settle? ⟨ts, .number stage digits⟩
      = some (.number (String.ofList digits.reverse) :: ts) := by simp [settle?, h]
  refine ⟨hsettle, fun c hc => ?_⟩
  simp [step?, hnext c hc, hsettle]

theorem run_token_number {cs : List Char} (h : IsNumber cs) (ts : List Token) :
    ∃ x, cs.foldlM step? ⟨ts, .nothing⟩ = some x
      ∧ x.HasRead (.number (String.ofList cs) :: ts) := by
  cases h with
  | @bare ws fs es hw hf he =>
    obtain ⟨next, hrun, hcomplete⟩ := NumberStage.run_unsigned hw hf he
    obtain ⟨c, cs, hcs⟩ : ∃ c cs, ws ++ fs ++ es = c :: cs := by
      cases hw <;> exact ⟨_, _, rfl⟩
    rw [hcs] at hrun ⊢
    obtain ⟨stage, hc, hrest⟩ := Option.bind_eq_some_iff.mp hrun
    refine ⟨⟨ts, .number next (cs.reverse ++ [c])⟩, ?_, ?_⟩
    · rw [List.foldlM_cons]
      change (start? ts c >>= _) = _
      rw [start?_of_next? hc]
      exact run_number hrest ts
    · simpa using hasRead_number hcomplete (cs.reverse ++ [c]) ts
  | @minus ws fs es hw hf he =>
    obtain ⟨next, hrun, hcomplete⟩ := NumberStage.run_unsigned hw hf he
    refine ⟨⟨ts, .number next ((ws ++ fs ++ es).reverse ++ ['-'])⟩, ?_, ?_⟩
    · exact run_number hrun ts
    · simpa using hasRead_number hcomplete ((ws ++ fs ++ es).reverse ++ ['-']) ts

/-- The characters of a token are read as that token. -/
theorem run_token {t : Token} {cs : List Char} (h : t.Spelled cs) (ts : List Token) :
    ∃ x, cs.foldlM step? ⟨ts, .nothing⟩ = some x ∧ x.HasRead (t :: ts)
      ∧ (t.isOpen = false → x = ⟨t :: ts, .nothing⟩) := by
  cases h with
  | openObject => exact ⟨_, rfl, hasRead_nothing _, fun _ => rfl⟩
  | closeObject => exact ⟨_, rfl, hasRead_nothing _, fun _ => rfl⟩
  | openArray => exact ⟨_, rfl, hasRead_nothing _, fun _ => rfl⟩
  | closeArray => exact ⟨_, rfl, hasRead_nothing _, fun _ => rfl⟩
  | colon => exact ⟨_, rfl, hasRead_nothing _, fun _ => rfl⟩
  | comma => exact ⟨_, rfl, hasRead_nothing _, fun _ => rfl⟩
  | null => exact ⟨_, rfl, hasRead_word rfl ts, nofun⟩
  | true => exact ⟨_, rfl, hasRead_word rfl ts, nofun⟩
  | false => exact ⟨_, rfl, hasRead_word rfl ts, nofun⟩
  | number h =>
    obtain ⟨x, hrun, hread⟩ := run_token_number h ts
    exact ⟨x, hrun, hread, nofun⟩
  | @string pieces cs h =>
    have hrun : ('\x22' :: (cs ++ ['\x22'])).foldlM step? ⟨ts, .nothing⟩
        = some ⟨.ofPieces pieces :: ts, .nothing⟩ := by
      rw [List.foldlM_cons]
      change (cs ++ ['\x22']).foldlM step? ⟨ts, .string []⟩ = _
      rw [List.foldlM_append, run_pieces h]
      simp [step?]
    exact ⟨_, hrun, hasRead_nothing _, fun _ => rfl⟩

theorem start?_space {c : Char} (h : isSpace c = true) (ts : List Token) :
    start? ts c = some ⟨ts, .nothing⟩ := by
  unfold isSpace at h
  simp only [Bool.or_eq_true, beq_iff_eq] at h
  rcases h with ((rfl | rfl) | rfl) | rfl <;> rfl

/-- Where a token may go on, what comes next is read as if nothing were being read. -/
theorem HasRead.step_eq {x : Lexer} {done : List Token} (hx : x.HasRead done) {c : Char}
    {cs : List Char} (hfits : x = ⟨done, .nothing⟩ ∨ Breaks (c :: cs)) :
    x.step? c = start? done c := by
  rcases hfits with rfl | hbreaks
  · rfl
  · exact hx.step c (hbreaks c rfl)

/-- The tokens that a text spells are read from it. -/
theorem run_spells {ts : List Token} {cs : List Char} (h : Spells ts cs) {x : Lexer}
    {done : List Token} (hx : x.HasRead done) (hfits : x = ⟨done, .nothing⟩ ∨ Breaks cs) :
    ∃ y, cs.foldlM step? x = some y ∧ y.HasRead (ts.reverse ++ done) := by
  induction h generalizing x done with
  | nil => exact ⟨x, rfl, hx⟩
  | space hc _ ih =>
    rw [List.foldlM_cons, hx.step_eq hfits, start?_space hc]
    exact ih (hasRead_nothing done) (Or.inl rfl)
  | @cons t ts cs rest first _ ends ih =>
    obtain ⟨y, hrun, hread, hclosed⟩ := run_token first done
    have hfirst : cs.foldlM step? x = some y := by
      obtain ⟨c, tail, rfl⟩ : ∃ c tail, cs = c :: tail := by
        cases first with
        | number h => cases h with
          | bare hw _ _ => cases hw <;> exact ⟨_, _, rfl⟩
          | minus _ _ _ => exact ⟨_, _, rfl⟩
        | _ => exact ⟨_, _, rfl⟩
      have hbreaks : x = ⟨done, .nothing⟩ ∨ Breaks (c :: tail) := hfits
      rw [List.foldlM_cons, hx.step_eq hbreaks]
      exact hrun
    have hnext : y = ⟨t :: done, .nothing⟩ ∨ Breaks rest := by
      cases hopen : t.isOpen with
      | false => exact Or.inl (hclosed hopen)
      | true => exact Or.inr (ends hopen)
    obtain ⟨z, hrest, hread⟩ := ih hread hnext
    refine ⟨z, ?_, ?_⟩
    · rw [List.foldlM_append, hfirst]
      exact hrest
    · simpa using hread

end Lexer

/-- A text that spells tokens has these tokens. -/
theorem tokens?_of_spells {ts : List Token} {s : String} (h : Spells ts s.toList) :
    tokens? s = some ts := by
  obtain ⟨x, hrun, hread⟩ := Lexer.run_spells h (Lexer.hasRead_nothing []) (Or.inl rfl)
  unfold tokens?
  rw [hrun, Option.bind_some, hread.settle]
  simp

/-! ## Strings as they are printed -/

/-- The piece that a character is printed as. -/
def pieceOf (c : Char) : Piece :=
  if c.toNat < 0x20 ∧ c ∉ ['\x08', '\x0c', '\n', '\r', '\t'] then .unit c.toNat else .char c

theorem spelled_escape (c : Char) : (pieceOf c).Spelled (escape c) := by
  unfold escape
  split
  case h_8 hquote hbackslash hb hf hn hr ht =>
    have hshort : c ∉ ['\x08', '\x0c', '\n', '\r', '\t'] := by
      simp only [List.mem_cons, List.not_mem_nil, or_false, not_or]
      exact ⟨hb, hf, hn, hr, ht⟩
    split
    case isTrue hcontrol =>
      have hvalue : 16 * (16 * (16 * 0 + 0) + c.toNat / 16) + c.toNat % 16 = c.toNat := by omega
      have hhigh : c.toNat / 16 < 16 := by omega
      have hlow : c.toNat % 16 < 16 := by omega
      have hzero : hexValue? '0' = some 0 := rfl
      have hlong := Piece.Spelled.long hzero hzero (Text.hexValue?_hexDigit hhigh)
        (Text.hexValue?_hexDigit hlow)
      rw [hvalue] at hlong
      rwa [pieceOf, if_pos ⟨hcontrol, hshort⟩]
    case isFalse hcontrol =>
      rw [pieceOf, if_neg fun h => hcontrol h.1]
      exact .plain (by omega) hquote hbackslash
  all_goals exact .short rfl

theorem assemble_unit {n : Nat} (h : n < 0x20) (ps : List Piece) :
    assemble (.unit n :: ps) = (assemble ps).map (Char.ofNat n :: ·) := by
  have hlead : isLead n = false := by simp [isLead]; omega
  have htrail : isTrail n = false := by simp [isTrail]; omega
  cases ps with
  | nil => simp [assemble, hlead, htrail]
  | cons p ps => cases p <;> simp [assemble, hlead, htrail]

/-- The pieces that characters are printed as stand for these characters. -/
theorem assemble_map_pieceOf (cs : List Char) : assemble (cs.map pieceOf) = some cs := by
  induction cs with
  | nil => rfl
  | cons c cs ih =>
    rw [List.map_cons, pieceOf]
    split
    case isTrue h => rw [assemble_unit h.1, ih, Option.map_some, Char.ofNat_toNat]
    case isFalse => rw [assemble, ih, Option.map_some]

/-- A string between its quotes spells the string. -/
theorem spelled_quote (s : String) : (Token.string (some s)).Spelled (quote s).toList := by
  have hpieces : ∀ cs : List Char, SpellsPieces (cs.map pieceOf) (cs.flatMap escape) := by
    intro cs
    induction cs with
    | nil => exact .nil
    | cons c cs ih => exact .cons (spelled_escape c) ih
  have htoken : Token.ofPieces (s.toList.map pieceOf) = .string (some s) := by
    rw [Token.ofPieces, assemble_map_pieceOf, Option.map_some, String.ofList_toList]
  rw [← htoken, quote, String.toList_ofList]
  exact .string (hpieces s.toList)

end ShopQuery.Json
