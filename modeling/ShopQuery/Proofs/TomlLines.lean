-- TOML texts line by line. If lines are texts with statements of their own, then the text that
-- joins them has all these statements in order: no line changes how another is read.
import ShopQuery.Toml.Document

namespace ShopQuery.Toml

/-! ## Statements of a text -/

/-- The statements of a text. -/
def statements? (cs : List Char) : Option (List Statement) :=
  (tokens? cs).bind Statement.ofTokens?

/-- A text without the byte order mark in front of it. -/
def withoutMark : List Char → List Char
  | '\ufeff' :: rest => rest
  | cs => cs

theorem Document.read?_eq (s : String) :
    read? s = (statements? (withoutMark s.toList)).bind ofStatements? := by
  unfold statements?
  rw [Option.bind_assoc]
  rfl

/-! ## Tokens in front -/

namespace Lexer

/-- The same token is being read behind others. -/
def behind (earlier : List Token) (x : Lexer) : Lexer := ⟨x.tokens ++ earlier, x.lexeme⟩

/-- The tokens, latest first, if the text ends after these characters. -/
def finish? (x : Lexer) (cs : List Char) : Option (List Token) := (cs.foldlM step? x).bind settle?

section Behind

variable (earlier : List Token)

theorem start?_behind (ts : List Token) (c : Char) :
    start? (ts ++ earlier) c = (start? ts c).map (behind earlier) := by
  unfold start?
  split
  case h_13 => split <;> rfl
  all_goals rfl

theorem settle?_behind (x : Lexer) :
    (x.behind earlier).settle? = x.settle?.map (· ++ earlier) := by
  obtain ⟨ts, lexeme⟩ := x
  cases lexeme with
  | closing q chars count =>
    simp only [settle?, behind]
    split <;> rfl
  | _ => rfl

theorem settled_behind (x : Lexer) (c : Char) :
    ((x.behind earlier).settle?.bind fun ts => start? ts c)
      = (x.settle?.bind fun ts => start? ts c).map (behind earlier) := by
  rw [settle?_behind, Option.bind_map, Option.map_bind]
  congr 1
  funext ts
  exact start?_behind earlier ts c

theorem step?_behind (x : Lexer) (c : Char) :
    (x.behind earlier).step? c = (x.step? c).map (behind earlier) := by
  unfold step?
  rw [settled_behind]
  simp only [behind]
  split
  case h_1 => rfl
  case h_5 =>
    rw [start?_behind]
    split <;> rfl
  case h_12 =>
    split
    case h_3 =>
      simp only [apply_ite (Option.map (behind earlier))]
      rfl
    all_goals rfl
  case h_13 =>
    rw [Option.map_bind]
    congr 1
    funext d
    simp only [Function.comp_apply, apply_ite (Option.map (behind earlier))]
    rfl
  all_goals
    simp only [apply_ite (Option.map (behind earlier)), Option.map_bind]
    rfl

theorem finish?_behind (x : Lexer) (cs : List Char) :
    (x.behind earlier).finish? cs = (x.finish? cs).map (· ++ earlier) := by
  unfold finish?
  induction cs generalizing x with
  | nil => exact settle?_behind earlier x
  | cons c cs ih =>
    rw [List.foldlM_cons, List.foldlM_cons, step?_behind]
    cases x.step? c with
    | none => rfl
    | some y => exact ih y

end Behind

/-- Where no token is being read, the text is read on as if it began here. -/
theorem finish?_nothing (ts : List Token) (cs : List Char) :
    finish? ⟨ts, .nothing⟩ cs = (tokens? cs).map (·.reverse ++ ts) := by
  have hbehind : finish? ⟨ts, .nothing⟩ cs = (finish? {} cs).map (· ++ ts) :=
    finish?_behind ts {} cs
  have htokens : tokens? cs = (finish? {} cs).map List.reverse := rfl
  rw [hbehind, htokens, Option.map_map]
  congr 1
  funext more
  simp

/-- A token that has come to its end goes on with nothing that follows. -/
theorem finish?_of_ended {x : Lexer} {ts : List Token} {cs : List Char}
    (hsettle : x.settle? = some ts) (hnext : ∀ c ∈ cs.head?, x.step? c = start? ts c) :
    x.finish? cs = finish? ⟨ts, .nothing⟩ cs := by
  cases cs with
  | nil => exact hsettle
  | cons c cs =>
    have hstep : x.step? c = step? ⟨ts, .nothing⟩ c := hnext c rfl
    unfold finish?
    rw [List.foldlM_cons, List.foldlM_cons, hstep]

theorem finish?_append {x y : Lexer} {cs : List Char} (h : cs.foldlM step? x = some y)
    (rest : List Char) : x.finish? (cs ++ rest) = y.finish? rest := by
  unfold finish?
  rw [List.foldlM_append, h]
  rfl

/-- A line may end where a text may end. -/
theorem step?_feed {x : Lexer} {ts : List Token} (h : x.settle? = some ts) :
    x.step? '\n' = some ⟨.newline :: ts, .nothing⟩
      ∧ x.step? '\r' = some ⟨ts, .carriage⟩ := by
  have hstart : ∀ c, (x.settle?.bind fun ts => start? ts c) = start? ts c := fun c => by
    rw [h, Option.bind_some]
  obtain ⟨tokens, lexeme⟩ := x
  cases lexeme with
  | nothing => exact ⟨hstart '\n', hstart '\r'⟩
  | blank chars => exact ⟨hstart '\n', hstart '\r'⟩
  | word chars => exact ⟨hstart '\n', hstart '\r'⟩
  | comment => exact ⟨hstart '\n', hstart '\r'⟩
  | openedTwice q => cases q <;> exact ⟨hstart '\n', hstart '\r'⟩
  | closing q chars count =>
    have hcount : 3 ≤ count := (Option.ite_none_right_eq_some.mp h).1
    cases q <;> simp [step?, Quote.char, hcount, h, start?]
  | _ => cases h

end Lexer

/-- The characters that end a line. -/
def IsLineEnd (cs : List Char) : Prop := cs = ['\n'] ∨ cs = ['\r', '\n']

/-- The tokens of two texts with a line end between them. -/
theorem tokens?_lines {cs lineEnd : List Char} {ts : List Token} (h : tokens? cs = some ts)
    (hend : IsLineEnd lineEnd) (rest : List Char) :
    tokens? (cs ++ lineEnd ++ rest) = (tokens? rest).map (ts ++ .newline :: ·) := by
  obtain ⟨done, hdone, rfl⟩ := Option.map_eq_some_iff.mp h
  obtain ⟨x, hrun, hsettle⟩ := Option.bind_eq_some_iff.mp hdone
  obtain ⟨hfeed, hreturn⟩ := Lexer.step?_feed hsettle
  have hended : lineEnd.foldlM Lexer.step? x = some ⟨.newline :: done, .nothing⟩ := by
    rcases hend with rfl | rfl
    · simp [hfeed]
    · simp only [List.foldlM_cons, hreturn]
      rfl
  have htokens : tokens? (cs ++ lineEnd ++ rest)
      = (Lexer.finish? {} (cs ++ (lineEnd ++ rest))).map List.reverse := by
    rw [← List.append_assoc]
    rfl
  rw [htokens, Lexer.finish?_append hrun, Lexer.finish?_append hended, Lexer.finish?_nothing,
    Option.map_map]
  congr 1
  funext more
  simp

/-! ## Statements in front -/

namespace Reader

/-- The same is being read behind other statements. -/
def behind (earlier : List Statement) (r : Reader) : Reader :=
  ⟨r.statements ++ earlier, r.expectation⟩

section Behind

variable (earlier : List Statement) (r : Reader)

theorem expectation_behind : (r.behind earlier).expectation = r.expectation := rfl

theorem give?_behind (value : Node) (p : Pending) :
    (r.behind earlier).give? value p = (r.give? value p).map (behind earlier) := by
  unfold give?
  split
  case h_3 =>
    rw [Option.map_bind]
    rfl
  all_goals rfl

theorem giveWord?_behind (chars : List Char) (p : Pending) :
    (r.behind earlier).giveWord? chars p = (r.giveWord? chars p).map (behind earlier) := by
  unfold giveWord?
  rw [Option.map_bind]
  congr 1
  funext value
  exact give?_behind earlier r (.scalar value) p

theorem begin?_behind (p : Pending) (t : Token) :
    (r.behind earlier).begin? p t = (r.begin? p t).map (behind earlier) := by
  unfold begin?
  split
  case h_2 | h_3 => exact give?_behind ..
  case h_4 | h_5 => split <;> rfl
  all_goals rfl

theorem afterPart?_behind (role : KeyRole) (parts : List String) (t : Token) :
    (r.behind earlier).afterPart? role parts t
      = (r.afterPart? role parts t).map (behind earlier) := by
  unfold afterPart?
  simp only
  split
  case h_2 => split <;> rfl
  all_goals rfl

theorem part?_behind (role : KeyRole) (parts : List String) (t : Token) :
    (r.behind earlier).part? role parts t = (r.part? role parts t).map (behind earlier) := by
  unfold part?
  split
  case h_1 => rfl
  case h_2 =>
    rw [Option.map_bind]
    rfl

theorem settled?_behind (t : Token) :
    (r.behind earlier).settled? t = (r.settled? t).map (behind earlier) := by
  unfold settled?
  rw [expectation_behind]
  split
  case h_4 | h_8 | h_9 | h_29 => exact part?_behind ..
  case h_10 => exact afterPart?_behind ..
  case h_16 => split <;> rfl
  case h_17 | h_21 => exact begin?_behind ..
  case h_20 =>
    split
    case h_1 => exact give?_behind ..
    case h_2 => rfl
  case h_25 | h_28 | h_33 => exact give?_behind ..
  all_goals rfl

theorem giveWord?_settled_behind (chars : List Char) (p : Pending) (t : Token) :
    (((r.behind earlier).giveWord? chars p).bind fun r => r.settled? t)
      = ((r.giveWord? chars p).bind fun r => r.settled? t).map (behind earlier) := by
  rw [giveWord?_behind, Option.bind_map, Option.map_bind]
  congr 1
  funext r
  exact settled?_behind earlier r t

theorem step?_behind (t : Token) :
    (r.behind earlier).step? t = (r.step? t).map (behind earlier) := by
  unfold step?
  rw [expectation_behind]
  split
  case h_5 | h_6 => exact giveWord?_settled_behind ..
  case h_7 => exact settled?_behind ..
  all_goals rfl

theorem finish?_behind :
    (r.behind earlier).finish? = r.finish?.map (earlier.reverse ++ ·) := by
  have hreverse : ∀ ss : List Statement,
      (ss ++ earlier).reverse = earlier.reverse ++ ss.reverse := fun _ => List.reverse_append
  unfold finish?
  rw [expectation_behind]
  split
  case h_1 | h_2 => exact congrArg some (hreverse r.statements)
  case h_3 | h_4 =>
    rw [giveWord?_behind, Option.bind_map, Option.map_bind]
    congr 1
    funext s
    simp only [Function.comp_apply, expectation_behind]
    split
    · exact congrArg some (hreverse s.statements)
    · rfl
  case h_5 => rfl

theorem run_behind (ts : List Token) :
    (ts.foldlM step? (r.behind earlier)).bind finish?
      = ((ts.foldlM step? r).bind finish?).map (earlier.reverse ++ ·) := by
  induction ts generalizing r with
  | nil => exact finish?_behind earlier r
  | cons t ts ih =>
    rw [List.foldlM_cons, List.foldlM_cons, step?_behind]
    cases r.step? t with
    | none => rfl
    | some s => exact ih s

end Behind

/-- A line may end where the statements may end, and a statement may follow. -/
theorem step?_newline {r : Reader} {ss : List Statement} (h : r.finish? = some ss) :
    r.step? .newline = some ⟨ss.reverse, .statement⟩ := by
  obtain ⟨done, expectation⟩ := r
  cases expectation with
  | statement | lineEnd =>
    obtain rfl := Option.some.inj h
    simp [step?, settled?, expect]
  | word chars p | afterWord chars blank p =>
    obtain ⟨⟨ended, next⟩, hgive, hended⟩ := Option.bind_eq_some_iff.mp h
    simp only [step?]
    rw [hgive, Option.bind_some]
    cases next with
    | lineEnd =>
      obtain rfl := Option.some.inj hended
      simp [settled?, expect]
    | _ => cases hended
  | _ => cases h

end Reader

namespace Statement

/-- The statements of two rows of tokens with a line end between them. -/
theorem ofTokens?_lines {ts : List Token} {ss : List Statement} (h : ofTokens? ts = some ss)
    (rest : List Token) :
    ofTokens? (ts ++ .newline :: rest) = (ofTokens? rest).map (ss ++ ·) := by
  obtain ⟨r, hrun, hfinish⟩ := Option.bind_eq_some_iff.mp h
  have hbehind : (rest.foldlM Reader.step? ⟨ss.reverse, .statement⟩).bind Reader.finish?
      = (ofTokens? rest).map (ss.reverse.reverse ++ ·) := Reader.run_behind ss.reverse {} rest
  rw [List.reverse_reverse] at hbehind
  rw [← hbehind, ofTokens?, List.foldlM_append, hrun]
  change ((Reader.step? r .newline >>= _).bind _) = _
  rw [Reader.step?_newline hfinish]
  rfl

end Statement

/-! ## Lines -/

/-- The statements of two texts with a line end between them. -/
theorem statements?_lines {cs lineEnd : List Char} {ss : List Statement}
    (h : statements? cs = some ss) (hend : IsLineEnd lineEnd) (rest : List Char) :
    statements? (cs ++ lineEnd ++ rest) = (statements? rest).map (ss ++ ·) := by
  obtain ⟨ts, hts, hss⟩ := Option.bind_eq_some_iff.mp h
  unfold statements?
  rw [tokens?_lines hts hend, Option.bind_map, Option.map_bind]
  congr 1
  funext more
  exact Statement.ofTokens?_lines hss more

end ShopQuery.Toml
