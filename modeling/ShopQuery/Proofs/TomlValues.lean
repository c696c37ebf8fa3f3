-- How the lines of a TOML text may be written: headers, and entries with values of any form, down
-- to the depth to which values may nest. A line that is written so is read as its one statement.
import ShopQuery.Proofs.TomlTokens
import ShopQuery.Proofs.TomlWords

namespace ShopQuery.Toml

/-! ## Keys -/

/-- A key that is written as it is, or as a string. -/
inductive SpellsKey : String → List Char → Prop
  | bare {name : String} (nonempty : name.toList ≠ []) (h : isBareKey name.toList = true) :
    SpellsKey name name.toList
  | quoted {name : String} {cs : List Char} (h : SpellsText name cs) : SpellsKey name cs

/-- Keys with points between them. -/
inductive SpellsPath : List String → List Char → Prop
  | last {name : String} {cs : List Char} (h : SpellsKey name cs) : SpellsPath [name] cs
  | more {name : String} {path : List String} {key b₁ b₂ rest : List Char} (h : SpellsKey name key)
      (h₁ : IsBlanks b₁) (h₂ : IsBlanks b₂) (hrest : SpellsPath path rest) :
    SpellsPath (name :: path) (key ++ (b₁ ++ '.' :: (b₂ ++ rest)))

/-! ## Values -/

/-- What characters inside of a value may stand for. -/
inductive Part
  | value (v : Node)
  /-- The items of an array from here on, and its end. -/
  | items (vs : List Node)
  /-- The entries of an inline table from here on, and its end. They make one table of the other. -/
  | members (es fs : Entries)

/-- The forms of a value, where values may nest to a depth. Between the parts of an array or an
inline table there may be line ends and comments, and a comma behind the last one. -/
inductive Spells : Nat → Part → List Char → Prop
  | word {room : Nat} {v : Scalar} {cs : List Char} (h : SpellsWord v cs) :
    Spells room (.value (.scalar v)) cs
  | text {room : Nat} {s : String} {cs : List Char} (h : SpellsText s cs) :
    Spells room (.value (.scalar (.text s))) cs
  | block {room : Nat} {s : String} {cs : List Char} (h : SpellsBlock s cs) :
    Spells room (.value (.scalar (.text s))) cs
  | array {room : Nat} {vs : List Node} {cs : List Char} (h : Spells room (.items vs) cs) :
    Spells (room + 1) (.value (.array vs)) ('[' :: cs)
  | table {room : Nat} {es : Entries} {cs : List Char} (h : Spells room (.members [] es) cs) :
    Spells (room + 1) (.value (.table .inline es)) ('\x7b' :: cs)
  | noItem {room : Nat} {gap : List Char} (hgap : IsGap gap) :
    Spells room (.items []) (gap ++ [']'])
  | lastItem {room : Nat} {v : Node} {before value after : List Char} (hbefore : IsGap before)
      (h : Spells room (.value v) value) (hafter : IsGap after) :
    Spells room (.items [v]) (before ++ (value ++ (after ++ [']'])))
  | item {room : Nat} {v : Node} {vs : List Node} {before value after rest : List Char}
      (hbefore : IsGap before) (h : Spells room (.value v) value) (hafter : IsGap after)
      (hrest : Spells room (.items vs) rest) :
    Spells room (.items (v :: vs)) (before ++ (value ++ (after ++ ',' :: rest)))
  | noMember {room : Nat} {es : Entries} {gap : List Char} (hgap : IsGap gap) :
    Spells room (.members es es) (gap ++ ['\x7d'])
  | lastMember {room : Nat} {es fs : Entries} {path : List String} {v : Node}
      {before key g₁ g₂ value after : List Char} (hbefore : IsGap before)
      (hpath : SpellsPath path key) (hparts : path.length ≤ maxParts) (h₁ : IsGap g₁)
      (h₂ : IsGap g₂) (h : Spells room (.value v) value) (hafter : IsGap after)
      (hinsert : es.insert? v path = some fs) :
    Spells room (.members es fs)
      (before ++ (key ++ (g₁ ++ '=' :: (g₂ ++ (value ++ (after ++ ['\x7d']))))))
  | member {room : Nat} {es fs gs : Entries} {path : List String} {v : Node}
      {before key g₁ g₂ value after rest : List Char} (hbefore : IsGap before)
      (hpath : SpellsPath path key) (hparts : path.length ≤ maxParts) (h₁ : IsGap g₁)
      (h₂ : IsGap g₂) (h : Spells room (.value v) value) (hafter : IsGap after)
      (hinsert : es.insert? v path = some fs) (hrest : Spells room (.members fs gs) rest) :
    Spells room (.members es gs)
      (before ++ (key ++ (g₁ ++ '=' :: (g₂ ++ (value ++ (after ++ ',' :: rest))))))

/-! ## Lines -/

/-- The forms of a statement, with a comment behind it or none. -/
inductive Statement.Spelled : Statement → List Char → Prop
  | header {path : List String} {b₁ b₂ key b₃ b₄ comment : List Char}
      (hpath : SpellsPath path key) (hparts : path.length ≤ maxParts) (h₁ : IsBlanks b₁)
      (h₂ : IsBlanks b₂) (h₃ : IsBlanks b₃) (h₄ : IsBlanks b₄) (hcomment : IsComment comment) :
    Spelled (.header path) (b₁ ++ '[' :: (b₂ ++ (key ++ (b₃ ++ ']' :: (b₄ ++ comment)))))
  | element {path : List String} {b₁ b₂ key b₃ b₄ comment : List Char}
      (hpath : SpellsPath path key) (hparts : path.length ≤ maxParts) (h₁ : IsBlanks b₁)
      (h₂ : IsBlanks b₂) (h₃ : IsBlanks b₃) (h₄ : IsBlanks b₄) (hcomment : IsComment comment) :
    Spelled (.element path)
      (b₁ ++ '[' :: '[' :: (b₂ ++ (key ++ (b₃ ++ ']' :: ']' :: (b₄ ++ comment)))))
  | entry {path : List String} {v : Node} {b₁ key b₂ b₃ value b₄ comment : List Char}
      (hpath : SpellsPath path key) (hparts : path.length ≤ maxParts)
      (hvalue : Spells maxDepth (.value v) value) (h₁ : IsBlanks b₁) (h₂ : IsBlanks b₂)
      (h₃ : IsBlanks b₃) (h₄ : IsBlanks b₄) (hcomment : IsComment comment) :
    Spelled (.entry path v) (b₁ ++ (key ++ (b₂ ++ '=' :: (b₃ ++ (value ++ (b₄ ++ comment))))))

/-- The forms of a line that holds a statement, or nothing but blanks and a comment. -/
inductive SpellsLine : Option Statement → List Char → Prop
  | nothing {blanks comment : List Char} (hblanks : IsBlanks blanks)
      (hcomment : IsComment comment) : SpellsLine none (blanks ++ comment)
  | statement {s : Statement} {cs : List Char} (h : s.Spelled cs) : SpellsLine (some s) cs

/-! ## Reading on -/

/-- The statements of a text of which a part has been read. -/
def readFrom? (r : Reader) (cs : List Char) : Option (List Statement) :=
  (tokens? cs).bind fun ts => (ts.foldlM Reader.step? r).bind Reader.finish?

theorem readFrom?_tokens {cs rest : List Char} {ts : List Token}
    (h : tokens? (cs ++ rest) = (tokens? rest).map (ts ++ ·)) {r r' : Reader}
    (hrun : ts.foldlM Reader.step? r = some r') :
    readFrom? r (cs ++ rest) = readFrom? r' rest := by
  unfold readFrom?
  rw [h, Option.bind_map]
  congr 1
  funext more
  rw [Function.comp_apply, List.foldlM_append, hrun]
  rfl

theorem readFrom?_token {t : Token} {cs rest : List Char}
    (h : tokens? (cs ++ rest) = (tokens? rest).map ([t] ++ ·)) {r r' : Reader}
    (hstep : r.step? t = some r') : readFrom? r (cs ++ rest) = readFrom? r' rest :=
  readFrom?_tokens h (by rw [List.foldlM_cons, hstep]; rfl)

/-- A sign that is a token by itself. -/
theorem readFrom?_sign {c : Char} {t : Token} (hstart : Lexer.start? [] c = some ⟨[t], .nothing⟩)
    {r r' : Reader} (hstep : r.step? t = some r') (rest : List Char) :
    readFrom? r (c :: rest) = readFrom? r' rest :=
  @readFrom?_token t [c] rest (tokens?_sign hstart rest) r r' hstep

/-- A comment or none, and a line end. -/
theorem readFrom?_line {comment lineEnd : List Char} (hcomment : IsComment comment)
    (hend : IsLineEnd lineEnd) {r r' : Reader} (hstep : r.step? .newline = some r')
    (rest : List Char) : readFrom? r (comment ++ (lineEnd ++ rest)) = readFrom? r' rest := by
  rw [← List.append_assoc]
  refine readFrom?_token ?_ hstep
  rw [List.append_assoc]
  exact tokens?_line hcomment hend rest

/-- Blanks and line ends change nothing. -/
structure Reader.Idle (r : Reader) : Prop where
  blank : ∀ cs, r.step? (.blank cs) = some r
  newline : r.step? .newline = some r

theorem run_blankTokens {r : Reader} (h : ∀ cs, r.step? (.blank cs) = some r) (cs : List Char) :
    (blankTokens cs).foldlM Reader.step? r = some r := by
  unfold blankTokens
  split
  · rfl
  · rw [List.foldlM_cons, h]
    rfl

theorem readFrom?_blanks {r : Reader} (hidle : ∀ cs, r.step? (.blank cs) = some r)
    {blanks rest : List Char} (h : IsBlanks blanks) (hsolid : Solid rest) :
    readFrom? r (blanks ++ rest) = readFrom? r rest :=
  readFrom?_tokens (tokens?_blanks h hsolid) (run_blankTokens hidle blanks)

theorem readFrom?_gap {r : Reader} (hidle : r.Idle) {gap rest : List Char} (h : IsGap gap)
    (hsolid : Solid rest) : readFrom? r (gap ++ rest) = readFrom? r rest := by
  induction h with
  | blanks h => exact readFrom?_blanks hidle.blank h hsolid
  | @line blanks comment lineEnd gap hblanks hcomment hend _ ih =>
    rw [List.append_assoc, List.append_assoc, List.append_assoc,
      readFrom?_blanks hidle.blank hblanks (solid_comment hcomment (solid_lineEnd hend _)),
      readFrom?_line hcomment hend hidle.newline, ih]

/-- The signs that may stand behind a value. -/
inductive Closes : Char → Token → Prop
  | comma : Closes ',' .comma
  | bracket : Closes ']' .closeBracket
  | brace : Closes '\x7d' .closeBrace

namespace Closes

variable {c : Char} {t : Token}

theorem start?_eq (h : Closes c t) : Lexer.start? [] c = some ⟨[t], .nothing⟩ := by cases h <;> rfl

theorem solid (h : Closes c t) (rest : List Char) : Solid (c :: rest) := by
  cases h <;> exact solid_cons rfl rest

theorem stops (h : Closes c t) (rest : List Char) : Stops (c :: rest) := by
  cases h <;> exact stops_cons (by decide) (by rintro (_ | _) <;> decide) rest

end Closes

/-! ## Values that are words -/

theorem give?_congr (ss : List Statement) (e e' : Expectation) (v : Node) (p : Pending) :
    Reader.give? ⟨ss, e⟩ v p = Reader.give? ⟨ss, e'⟩ v p := by
  unfold Reader.give?
  split <;> rfl

/-- After a value nothing is a part of a word. -/
theorem step?_of_give? {r r' : Reader} {v : Node} {p : Pending} (h : r.give? v p = some r')
    (t : Token) : r'.step? t = r'.settled? t := by
  unfold Reader.give? at h
  split at h
  case h_1 =>
    obtain rfl := Option.some.inj h
    rfl
  case h_2 =>
    obtain rfl := Option.some.inj h
    rfl
  case h_3 =>
    obtain ⟨_, _, hr⟩ := Option.bind_eq_some_iff.mp h
    obtain rfl := Option.some.inj hr
    rfl

/-- The reader has read a value, but it may still wait for more of it: what follows a word shows
that the word has come to its end. -/
inductive Settles : Reader → Reader → Prop
  | done (r : Reader) : Settles r r
  | word {ss : List Statement} {chars : List Char} {p : Pending} {v : Scalar} {r : Reader}
      (hword : Scalar.ofWord? chars = some v)
      (hgive : Reader.give? ⟨ss, .statement⟩ (.scalar v) p = some r) :
    Settles ⟨ss, .word chars p⟩ r
  | afterWord {ss : List Statement} {chars blank : List Char} {p : Pending} {v : Scalar}
      {r : Reader} (hword : Scalar.ofWord? chars = some v)
      (hgive : Reader.give? ⟨ss, .statement⟩ (.scalar v) p = some r) :
    Settles ⟨ss, .afterWord chars blank p⟩ r

namespace Settles

variable {r r' : Reader}

theorem giveWord?_eq {ss : List Statement} {chars : List Char} {p : Pending} {v : Scalar}
    (hword : Scalar.ofWord? chars = some v) (e : Expectation) :
    Reader.giveWord? ⟨ss, e⟩ chars p = Reader.give? ⟨ss, .statement⟩ (.scalar v) p := by
  rw [Reader.giveWord?, hword, Option.bind_some]
  exact give?_congr ss e .statement (.scalar v) p

/-- A line end or a sign with which no word goes on is read after the value. -/
theorem step?_eq (h : Settles r r') {t : Token} (ht : t = .newline ∨ ∃ c, Closes c t) :
    r.step? t = r'.step? t := by
  cases h with
  | done => rfl
  | word hword hgive | afterWord hword hgive =>
    rw [step?_of_give? hgive]
    rcases ht with rfl | ⟨c, ht⟩
    · simp only [Reader.step?, giveWord?_eq hword, hgive, Option.bind_some]
    · cases ht <;> simp only [Reader.step?, giveWord?_eq hword, hgive, Option.bind_some]

/-- Blanks behind a value are no part of it. -/
theorem blank (h : Settles r r') (hidle : ∀ cs, r'.step? (.blank cs) = some r') (cs : List Char) :
    ∃ s, r.step? (.blank cs) = some s ∧ Settles s r' := by
  cases h with
  | done => exact ⟨r, hidle cs, .done r⟩
  | word hword hgive => exact ⟨_, rfl, .afterWord hword hgive⟩
  | afterWord hword hgive =>
    refine ⟨r', ?_, .done r'⟩
    rw [← hidle cs, step?_of_give? hgive]
    simp only [Reader.step?, giveWord?_eq hword, hgive, Option.bind_some]

theorem blanks (h : Settles r r') (hidle : ∀ cs, r'.step? (.blank cs) = some r') (cs : List Char) :
    ∃ s, (blankTokens cs).foldlM Reader.step? r = some s ∧ Settles s r' := by
  unfold blankTokens
  split
  · exact ⟨r, rfl, h⟩
  · obtain ⟨s, hs, hsettles⟩ := h.blank hidle cs
    exact ⟨s, by rw [List.foldlM_cons, hs]; rfl, hsettles⟩

theorem finish?_eq (h : Settles r r') (hline : r'.expectation = .lineEnd) :
    r.finish? = r'.finish? := by
  cases h with
  | done => rfl
  | word hword hgive | afterWord hword hgive =>
    unfold Reader.finish?
    simp only [giveWord?_eq hword, hgive, Option.bind_some, hline]

/-- Behind a value there may be blanks and line ends before the sign that follows. -/
theorem readFrom?_gap_sign (h : Settles r r') (hidle : r'.Idle) {gap : List Char}
    (hgap : IsGap gap) {c : Char} {t : Token} (hsign : Closes c t) {s : Reader}
    (hstep : r'.step? t = some s) (rest : List Char) :
    readFrom? r (gap ++ c :: rest) = readFrom? s rest := by
  cases hgap with
  | blanks hblanks =>
    obtain ⟨q, hq, hsettles⟩ := h.blanks hidle.blank gap
    have hstep : q.step? t = some s := by rw [hsettles.step?_eq (Or.inr ⟨c, hsign⟩), hstep]
    rw [readFrom?_tokens (tokens?_blanks hblanks (hsign.solid rest)) hq]
    exact readFrom?_sign hsign.start?_eq hstep rest
  | @line blanks comment lineEnd gap hblanks hcomment hend hgap =>
    obtain ⟨q, hq, hsettles⟩ := h.blanks hidle.blank blanks
    have hnewline : q.step? .newline = some r' := by
      rw [hsettles.step?_eq (Or.inl rfl), hidle.newline]
    have hline := solid_comment hcomment (solid_lineEnd hend (gap ++ c :: rest))
    rw [List.append_assoc, List.append_assoc, List.append_assoc,
      readFrom?_tokens (tokens?_blanks hblanks hline) hq, readFrom?_line hcomment hend hnewline,
      Toml.readFrom?_gap hidle hgap (hsign.solid rest)]
    exact readFrom?_sign hsign.start?_eq hstep rest

/-- Behind a value the line ends, perhaps with blanks and a comment. -/
theorem readFrom?_lineEnd {ss : List Statement} (h : Settles r ⟨ss, .lineEnd⟩)
    {blanks comment : List Char} (hblanks : IsBlanks blanks) (hcomment : IsComment comment) :
    readFrom? r (blanks ++ comment) = some ss.reverse := by
  obtain ⟨s, hs, hsettles⟩ := h.blanks (fun _ => rfl) blanks
  rw [readFrom?_tokens (tokens?_blanks hblanks hcomment.solid) hs, readFrom?,
    tokens?_comment hcomment]
  exact hsettles.finish?_eq rfl

end Settles

/-- Where a value may stand: behind a sign, or in an array. -/
inductive Awaits : Expectation → Pending → Prop
  | value (p : Pending) : Awaits (.value p) p
  | item (p : Pending) : Awaits (.item p) p

theorem WordRun.solid {cs : List Char} (h : WordRun cs) (rest : List Char) :
    Solid (cs ++ rest) := by
  induction h generalizing rest with
  | word hne h => exact (reads_word hne h).solid rest
  | join _ _ _ ih _ =>
    rw [List.append_assoc]
    exact ih _

/-- A word is read piece by piece. -/
theorem WordRun.readFrom?_eq {cs : List Char} (h : WordRun cs) {r : Reader}
    {ss : List Statement} {p : Pending} {before : List Char}
    (hr : ∀ w, r.step? (.word w) = some ⟨ss, .word (before ++ w) p⟩) {rest : List Char}
    (hrest : Stops rest) :
    readFrom? r (cs ++ rest) = readFrom? ⟨ss, .word (before ++ cs) p⟩ rest := by
  induction h generalizing r before rest with
  | word hne h => exact readFrom?_token ((reads_word hne h).tokens rest hrest) (hr _)
  | @join cs ds sign hsign _ hds ihfirst ihrest =>
    have hstops : Stops (sign :: (ds ++ rest)) := by
      rintro c hc
      obtain rfl := Option.some.inj hc
      rcases hsign with rfl | rfl <;> exact ⟨rfl, by rintro (_ | _) <;> decide⟩
    rw [List.append_assoc, List.cons_append, ihfirst hr hstops]
    have hsplit : before ++ (cs ++ sign :: ds) = before ++ cs ++ [sign] ++ ds := by simp
    rw [hsplit]
    rcases hsign with rfl | rfl
    · have hdot : Reader.step? ⟨ss, .word (before ++ cs) p⟩ .dot
          = some ⟨ss, .word (before ++ cs ++ ['.']) p⟩ := rfl
      rw [readFrom?_sign rfl hdot]
      exact ihrest (fun _ => rfl) hrest
    · have hblank : Reader.step? ⟨ss, .word (before ++ cs) p⟩ (.blank [' '])
          = some ⟨ss, .afterWord (before ++ cs) [' '] p⟩ := rfl
      have hspace : IsBlanks [' '] := List.forall_mem_singleton.mpr rfl
      rw [← List.singleton_append,
        readFrom?_token (tokens?_blanks hspace (hds.solid rest)) hblank]
      exact ihrest (fun w => by simp [Reader.step?, Reader.expect]) hrest

/-! ## Reading keys -/

/-- A key is read as one token that gives its name. -/
theorem SpellsKey.reads {name : String} {cs : List Char} (h : SpellsKey name cs) :
    ∃ t : Token, t.Reads cs ∧ keyPart? t = some name := by
  cases h with
  | bare nonempty h =>
    have hword : ∀ c ∈ name.toList, Lexer.isWordChar c = true := by
      intro c hc
      refine isWordChar_of (p := fun c => isBareKey [c]) (by decide) ?_
      simpa [isBareKey] using List.all_eq_true.mp h c hc
    exact ⟨_, reads_word nonempty hword, by simp [keyPart?, h]⟩
  | quoted h => exact ⟨_, reads_text h, rfl⟩

theorem SpellsPath.solid {path : List String} {cs : List Char} (h : SpellsPath path cs)
    (rest : List Char) : Solid (cs ++ rest) := by
  cases h with
  | last h =>
    obtain ⟨t, ht, _⟩ := h.reads
    exact ht.solid rest
  | more h _ _ _ =>
    obtain ⟨t, ht, _⟩ := h.reads
    rw [List.append_assoc]
    exact ht.solid _

/-- Where a part of a key may stand, behind parts that have been read. -/
inductive AwaitsPart : Expectation → KeyRole → List String → Prop
  | statement : AwaitsPart .statement .entry []
  | bracket : AwaitsPart .bracket .header []
  | member (es : Entries) (p : Pending) : AwaitsPart (.member es p) (.member es p) []
  | part (role : KeyRole) (parts : List String) : AwaitsPart (.part role parts) role parts

theorem AwaitsPart.step?_eq {e : Expectation} {role : KeyRole} {parts : List String}
    (he : AwaitsPart e role parts) (ss : List Statement) {t : Token} {name : String}
    (h : keyPart? t = some name) :
    Reader.step? ⟨ss, e⟩ t = some ⟨ss, .afterPart role (name :: parts)⟩ := by
  cases t with
  | word chars | text content =>
    cases he <;> simp [Reader.step?, Reader.settled?, Reader.part?, h, Reader.expect]
  | _ => cases h

theorem SpellsPath.readFrom?_eq {path : List String} {cs : List Char} (h : SpellsPath path cs)
    {e : Expectation} {role : KeyRole} {parts : List String} (he : AwaitsPart e role parts)
    (hparts : parts.length + path.length ≤ maxParts) (ss : List Statement) {rest : List Char}
    (hrest : Stops rest) :
    readFrom? ⟨ss, e⟩ (cs ++ rest)
      = readFrom? ⟨ss, .afterPart role (path.reverse ++ parts)⟩ rest := by
  induction h generalizing e parts with
  | last h =>
    obtain ⟨t, ht, hname⟩ := h.reads
    exact readFrom?_token (ht.tokens rest hrest) (he.step?_eq ss hname)
  | @more name path key b₁ b₂ tail h h₁ h₂ htail ih =>
    obtain ⟨t, ht, hname⟩ := h.reads
    have hdot : Stops ('.' :: (b₂ ++ (tail ++ rest))) :=
      stops_cons (by decide) (by rintro (_ | _) <;> decide) _
    have hpoint : Reader.step? ⟨ss, .afterPart role (name :: parts)⟩ .dot
        = some ⟨ss, .part role (name :: parts)⟩ := by
      have hfew : parts.length + 1 < maxParts := by
        have hne : path.length ≠ 0 := by cases htail <;> simp
        rw [List.length_cons] at hparts
        omega
      simp [Reader.step?, Reader.settled?, Reader.afterPart?, Reader.expect, hfew]
    have hcs : key ++ (b₁ ++ '.' :: (b₂ ++ tail)) ++ rest
        = key ++ (b₁ ++ '.' :: (b₂ ++ (tail ++ rest))) := by simp
    calc readFrom? ⟨ss, e⟩ (key ++ (b₁ ++ '.' :: (b₂ ++ tail)) ++ rest)
        = readFrom? ⟨ss, .afterPart role (name :: parts)⟩
            (b₁ ++ '.' :: (b₂ ++ (tail ++ rest))) := by
          rw [hcs]
          exact readFrom?_token (ht.tokens _ (stops_blanks h₁ hdot)) (he.step?_eq ss hname)
      _ = readFrom? ⟨ss, .part role (name :: parts)⟩ (b₂ ++ (tail ++ rest)) := by
          rw [readFrom?_blanks (fun _ => rfl) h₁ (solid_cons rfl _)]
          exact readFrom?_sign rfl hpoint _
      _ = readFrom? ⟨ss, .part role (name :: parts)⟩ (tail ++ rest) :=
          readFrom?_blanks (fun _ => rfl) h₂ (htail.solid rest)
      _ = readFrom? ⟨ss, .afterPart role ((name :: path).reverse ++ parts)⟩ rest := by
          rw [ih (.part role (name :: parts)) (by rw [List.length_cons] at hparts ⊢; omega)]
          simp

theorem stops_equals (rest : List Char) : Stops ('=' :: rest) :=
  stops_cons (by decide) (by rintro (_ | _) <;> decide) rest

/-- Between a key of an inline table and the sign behind it there may be line ends. -/
theorem readFrom?_memberEquals {ss : List Statement} {es : Entries} {p : Pending}
    {parts : List String} {gap : List Char} (h : IsGap gap) (rest : List Char) :
    readFrom? ⟨ss, .afterPart (.member es p) parts⟩ (gap ++ '=' :: rest)
      = readFrom? ⟨ss, .value { p with stack := .table es parts.reverse :: p.stack }⟩ rest := by
  have hequals : Solid ('=' :: rest) := solid_cons rfl rest
  cases h with
  | blanks h =>
    rw [readFrom?_blanks (fun _ => rfl) h hequals]
    exact readFrom?_sign rfl rfl rest
  | @line blanks comment lineEnd gap hblanks hcomment hend hgap =>
    have hline := solid_comment hcomment (solid_lineEnd hend (gap ++ '=' :: rest))
    have hnewline : Reader.step? ⟨ss, .afterPart (.member es p) parts⟩ .newline
        = some ⟨ss, .equals es parts.reverse p⟩ := rfl
    rw [List.append_assoc, List.append_assoc, List.append_assoc,
      readFrom?_blanks (fun _ => rfl) hblanks hline, readFrom?_line hcomment hend hnewline,
      readFrom?_gap ⟨fun _ => rfl, rfl⟩ hgap hequals]
    exact readFrom?_sign rfl rfl rest

/-! ## Reading values -/

/-- A value is read where it is awaited; arrays and inline tables are read to their ends. -/
def Leads (room : Nat) : Part → List Char → Prop
  | .value v, cs => ∀ {ss : List Statement} {e : Expectation} {p : Pending} {r : Reader},
    Awaits e p → p.stack.length + room ≤ maxDepth → Reader.give? ⟨ss, .statement⟩ v p = some r →
      ∃ s, Settles s r ∧ ∀ rest, Stops rest → readFrom? ⟨ss, e⟩ (cs ++ rest) = readFrom? s rest
  | .items vs, cs => ∀ {ss : List Statement} {p : Pending} {before : List Node} {r : Reader},
    p.stack.length + 1 + room ≤ maxDepth →
      Reader.give? ⟨ss, .statement⟩ (.array (before.reverse ++ vs)) p = some r →
        ∀ rest, readFrom? ⟨ss, .item { p with stack := .array before :: p.stack }⟩ (cs ++ rest)
          = readFrom? r rest
  | .members es fs, cs => ∀ {ss : List Statement} {p : Pending} {r : Reader},
    p.stack.length + 1 + room ≤ maxDepth →
      Reader.give? ⟨ss, .statement⟩ (.table .inline fs) p = some r →
        ∀ rest, readFrom? ⟨ss, .member es p⟩ (cs ++ rest) = readFrom? r rest

theorem Spells.solid {room : Nat} {v : Node} {cs : List Char} (h : Spells room (.value v) cs)
    (rest : List Char) : Solid (cs ++ rest) := by
  cases h with
  | word h => exact h.run.solid rest
  | text h => exact (reads_text h).solid rest
  | block h => exact (reads_block h).solid rest
  | array _ => exact solid_cons rfl _
  | table _ => exact solid_cons rfl _

/-- A token that is a string is a value as a whole. -/
theorem leads_text {room : Nat} {s : String} {t : Token} {cs : List Char} (h : t.Reads cs)
    (ht : t = .text s ∨ t = .block s) : Leads room (.value (.scalar (.text s))) cs := by
  intro ss e p r he _ hgive
  refine ⟨r, .done r, fun rest hrest => readFrom?_token (h.tokens rest hrest) ?_⟩
  rw [← hgive]
  rcases ht with rfl | rfl <;> cases he <;> exact give?_congr ..

theorem leads_word {room : Nat} {v : Scalar} {cs : List Char} (h : SpellsWord v cs) :
    Leads room (.value (.scalar v)) cs := by
  intro ss e p r he _ hgive
  refine ⟨_, .word (Scalar.ofWord?_of_spelled h) hgive, fun rest hrest => ?_⟩
  have hstart : ∀ w, Reader.step? ⟨ss, e⟩ (.word w) = some ⟨ss, .word ([] ++ w) p⟩ := by
    cases he <;> exact fun _ => rfl
  exact h.run.readFrom?_eq hstart hrest

theorem leads_array {room : Nat} {vs : List Node} {cs : List Char}
    (ih : Leads room (.items vs) cs) : Leads (room + 1) (.value (.array vs)) ('[' :: cs) := by
  intro ss e p r he hdepth hgive
  refine ⟨r, .done r, fun rest _ => ?_⟩
  have hopen : Reader.step? ⟨ss, e⟩ .openBracket
      = some ⟨ss, .item { p with stack := .array [] :: p.stack }⟩ := by
    have hroom : p.stack.length < maxDepth := by omega
    cases he <;> simp [Reader.step?, Reader.settled?, Reader.begin?, Reader.expect, hroom]
  rw [List.cons_append, readFrom?_sign rfl hopen]
  exact ih (by omega) hgive rest

theorem leads_table {room : Nat} {es : Entries} {cs : List Char}
    (ih : Leads room (.members [] es) cs) :
    Leads (room + 1) (.value (.table .inline es)) ('\x7b' :: cs) := by
  intro ss e p r he hdepth hgive
  refine ⟨r, .done r, fun rest _ => ?_⟩
  have hopen : Reader.step? ⟨ss, e⟩ .openBrace = some ⟨ss, .member [] p⟩ := by
    have hroom : p.stack.length < maxDepth := by omega
    cases he <;> simp [Reader.step?, Reader.settled?, Reader.begin?, Reader.expect, hroom]
  rw [List.cons_append, readFrom?_sign rfl hopen]
  exact ih (by omega) hgive rest

/-- A value between gaps, and the sign behind it. -/
theorem readFrom?_between {room : Nat} {v : Node} {before value after : List Char}
    (hbefore : IsGap before) (hvalue : ∀ rest, Solid (value ++ rest))
    (ih : Leads room (.value v) value) (hafter : IsGap after) {ss : List Statement}
    {e : Expectation} {p : Pending} (he : Awaits e p) (hidle : Reader.Idle ⟨ss, e⟩)
    (hdepth : p.stack.length + room ≤ maxDepth) {r s : Reader}
    (hgive : Reader.give? ⟨ss, .statement⟩ v p = some r) (hr : r.Idle) {c : Char} {t : Token}
    (hsign : Closes c t) (hstep : r.step? t = some s) (rest : List Char) :
    readFrom? ⟨ss, e⟩ (before ++ (value ++ (after ++ c :: rest))) = readFrom? s rest := by
  obtain ⟨q, hsettles, hq⟩ := ih he hdepth hgive
  rw [readFrom?_gap hidle hbefore (hvalue _), hq _ (stops_gap hafter (hsign.stops rest))]
  exact hsettles.readFrom?_gap_sign hr hafter hsign hstep rest

/-- An entry of an inline table between gaps, and the sign behind it. -/
theorem readFrom?_member {room : Nat} {es fs : Entries} {path : List String} {v : Node}
    {before key g₁ g₂ value after : List Char} (hbefore : IsGap before)
    (hpath : SpellsPath path key) (hparts : path.length ≤ maxParts) (h₁ : IsGap g₁)
    (h₂ : IsGap g₂) (hvalue : ∀ rest, Solid (value ++ rest)) (ih : Leads room (.value v) value)
    (hafter : IsGap after) (hinsert : es.insert? v path = some fs) {ss : List Statement}
    {p : Pending} (hdepth : p.stack.length + 1 + room ≤ maxDepth) {s : Reader} {c : Char}
    {t : Token} (hsign : Closes c t) (hstep : Reader.step? ⟨ss, .afterMember fs p⟩ t = some s)
    (rest : List Char) : readFrom? ⟨ss, .member es p⟩
      (before ++ (key ++ (g₁ ++ '=' :: (g₂ ++ (value ++ (after ++ c :: rest))))))
        = readFrom? s rest := by
  have hgive : Reader.give? ⟨ss, .statement⟩ v { p with stack := .table es path :: p.stack }
      = some ⟨ss, .afterMember fs p⟩ := by
    simp [Reader.give?, hinsert, Reader.expect]
  rw [readFrom?_gap ⟨fun _ => rfl, rfl⟩ hbefore (hpath.solid _),
    hpath.readFrom?_eq (.member es p) (by simpa using hparts) ss (stops_gap h₁ (stops_equals _)),
    readFrom?_memberEquals h₁, List.append_nil, List.reverse_reverse]
  exact readFrom?_between h₂ hvalue ih hafter
    (.value { p with stack := .table es path :: p.stack }) ⟨fun _ => rfl, rfl⟩ hdepth hgive
    ⟨fun _ => rfl, rfl⟩ hsign hstep rest

theorem leads {room : Nat} {part : Part} {cs : List Char} (h : Spells room part cs) :
    Leads room part cs := by
  induction h with
  | word h => exact leads_word h
  | text h => exact leads_text (reads_text h) (Or.inl rfl)
  | block h => exact leads_text (reads_block h) (Or.inr rfl)
  | array _ ih => exact leads_array ih
  | table _ ih => exact leads_table ih
  | noItem hgap =>
    intro ss p before r _ hgive rest
    rw [List.append_nil] at hgive
    rw [List.append_assoc, List.singleton_append,
      readFrom?_gap ⟨fun _ => rfl, rfl⟩ hgap (solid_cons rfl _)]
    refine readFrom?_sign rfl ?_ rest
    exact (give?_congr ..).trans hgive
  | @lastItem room v before value after hbefore h hafter ih =>
    intro ss p items r hdepth hgive rest
    have hitem : Reader.give? ⟨ss, .statement⟩ v { p with stack := .array items :: p.stack }
        = some ⟨ss, .afterItem (v :: items) p⟩ := rfl
    have hclose : Reader.step? ⟨ss, .afterItem (v :: items) p⟩ .closeBracket = some r := by
      rw [← hgive, ← List.reverse_cons]
      exact give?_congr ..
    simp only [List.append_assoc]
    exact readFrom?_between hbefore h.solid ih hafter
      (.item { p with stack := .array items :: p.stack }) ⟨fun _ => rfl, rfl⟩ hdepth hitem
      ⟨fun _ => rfl, rfl⟩ .bracket hclose rest
  | @item room v vs before value after more hbefore h hafter _ ih ihrest =>
    intro ss p items r hdepth hgive rest
    have hitem : Reader.give? ⟨ss, .statement⟩ v { p with stack := .array items :: p.stack }
        = some ⟨ss, .afterItem (v :: items) p⟩ := rfl
    have hcomma : Reader.step? ⟨ss, .afterItem (v :: items) p⟩ .comma
        = some ⟨ss, .item { p with stack := .array (v :: items) :: p.stack }⟩ := rfl
    simp only [List.append_assoc, List.cons_append]
    rw [readFrom?_between hbefore h.solid ih hafter
      (.item { p with stack := .array items :: p.stack }) ⟨fun _ => rfl, rfl⟩ hdepth hitem
      ⟨fun _ => rfl, rfl⟩ .comma hcomma]
    exact ihrest hdepth (by simpa using hgive) rest
  | noMember hgap =>
    intro ss p r _ hgive rest
    rw [List.append_assoc, List.singleton_append,
      readFrom?_gap ⟨fun _ => rfl, rfl⟩ hgap (solid_cons rfl _)]
    refine readFrom?_sign rfl ?_ rest
    exact (give?_congr ..).trans hgive
  | lastMember hbefore hpath hparts h₁ h₂ h hafter hinsert ih =>
    intro ss p r hdepth hgive rest
    simp only [List.append_assoc, List.cons_append]
    refine readFrom?_member hbefore hpath hparts h₁ h₂ h.solid ih hafter hinsert hdepth .brace ?_
      rest
    exact (give?_congr ..).trans hgive
  | member hbefore hpath hparts h₁ h₂ h hafter hinsert _ ih ihrest =>
    intro ss p r hdepth hgive rest
    simp only [List.append_assoc, List.cons_append]
    rw [readFrom?_member hbefore hpath hparts h₁ h₂ h.solid ih hafter hinsert hdepth .comma rfl]
    exact ihrest hdepth hgive rest

/-! ## Reading lines -/

/-- The key of a header, with blanks around it or none. -/
theorem readFrom?_header {path : List String} {b₁ key b₂ : List Char} (hpath : SpellsPath path key)
    (hparts : path.length ≤ maxParts) (h₁ : IsBlanks b₁) (h₂ : IsBlanks b₂) (ss : List Statement)
    (rest : List Char) : readFrom? ⟨ss, .bracket⟩ (b₁ ++ (key ++ (b₂ ++ ']' :: rest)))
      = readFrom? ⟨.header path :: ss, .lineEnd⟩ rest := by
  have hstops := stops_blanks h₂ (Closes.bracket.stops rest)
  have hkey : ∀ {e}, AwaitsPart e .header [] → readFrom? ⟨ss, e⟩ (key ++ (b₂ ++ ']' :: rest))
      = readFrom? ⟨.header path :: ss, .lineEnd⟩ rest := by
    intro e he
    rw [hpath.readFrom?_eq he (by simpa using hparts) ss hstops,
      readFrom?_blanks (fun _ => rfl) h₂ (solid_cons rfl _)]
    refine readFrom?_sign rfl ?_ rest
    simp [Reader.step?, Reader.settled?, Reader.afterPart?, Reader.emit]
  cases b₁ with
  | nil => exact hkey .bracket
  | cons c b₁ =>
    have hblank : (blankTokens (c :: b₁)).foldlM Reader.step? ⟨ss, .bracket⟩
        = some ⟨ss, .part .header []⟩ := rfl
    rw [readFrom?_tokens (tokens?_blanks h₁ (hpath.solid _)) hblank]
    exact hkey (.part .header [])

/-- The key of the header of an element, with blanks around it or none. -/
theorem readFrom?_element {path : List String} {b₁ key b₂ : List Char} (hpath : SpellsPath path key)
    (hparts : path.length ≤ maxParts) (h₁ : IsBlanks b₁) (h₂ : IsBlanks b₂) (ss : List Statement)
    (rest : List Char) :
    readFrom? ⟨ss, .part .element []⟩ (b₁ ++ (key ++ (b₂ ++ ']' :: ']' :: rest)))
      = readFrom? ⟨.element path :: ss, .lineEnd⟩ rest := by
  have hfirst : Reader.step? ⟨ss, .afterPart .element path.reverse⟩ .closeBracket
      = some ⟨ss, .secondBracket path⟩ := by
    simp [Reader.step?, Reader.settled?, Reader.afterPart?, Reader.expect]
  rw [readFrom?_blanks (fun _ => rfl) h₁ (hpath.solid _),
    hpath.readFrom?_eq (.part .element []) (by simpa using hparts) ss
      (stops_blanks h₂ (Closes.bracket.stops _)), List.append_nil,
    readFrom?_blanks (fun _ => rfl) h₂ (solid_cons rfl _), readFrom?_sign rfl hfirst]
  exact readFrom?_sign rfl rfl rest

/-- The key and the value of an entry, up to the end of its line. -/
theorem readFrom?_entry {path : List String} {v : Node} {key b₁ b₂ value : List Char}
    (hpath : SpellsPath path key) (hparts : path.length ≤ maxParts)
    (hvalue : Spells maxDepth (.value v) value) (h₁ : IsBlanks b₁) (h₂ : IsBlanks b₂) :
    ∃ r, Settles r ⟨[.entry path v], .lineEnd⟩ ∧ ∀ rest, Stops rest →
      readFrom? {} (key ++ (b₁ ++ '=' :: (b₂ ++ (value ++ rest)))) = readFrom? r rest := by
  obtain ⟨r, hsettles, hr⟩ := leads hvalue (.value ⟨path, []⟩)
    (Nat.le_of_eq (Nat.zero_add _)) rfl
  refine ⟨r, hsettles, fun rest hrest => ?_⟩
  have hequals : Reader.step? ⟨[], .afterPart .entry path.reverse⟩ .equals
      = some ⟨[], .value ⟨path, []⟩⟩ := by
    simp [Reader.step?, Reader.settled?, Reader.afterPart?, Reader.expect]
  rw [hpath.readFrom?_eq .statement (by simpa using hparts) [] (stops_blanks h₁ (stops_equals _)),
    List.append_nil, readFrom?_blanks (fun _ => rfl) h₁ (solid_cons rfl _),
    readFrom?_sign rfl hequals, readFrom?_blanks (fun _ => rfl) h₂ (hvalue.solid _)]
  exact hr rest hrest

theorem Statement.statements?_of_spelled {s : Statement} {cs : List Char} (h : s.Spelled cs) :
    statements? cs = some [s] := by
  change readFrom? {} cs = _
  cases h with
  | header hpath hparts h₁ h₂ h₃ h₄ hcomment =>
    rw [readFrom?_blanks (fun _ => rfl) h₁ (solid_cons rfl _), readFrom?_sign rfl rfl,
      readFrom?_header hpath hparts h₂ h₃]
    exact (Settles.done _).readFrom?_lineEnd h₄ hcomment
  | element hpath hparts h₁ h₂ h₃ h₄ hcomment =>
    rw [readFrom?_blanks (fun _ => rfl) h₁ (solid_cons rfl _), readFrom?_sign rfl rfl,
      readFrom?_sign rfl rfl, readFrom?_element hpath hparts h₂ h₃]
    exact (Settles.done _).readFrom?_lineEnd h₄ hcomment
  | @entry path v b₁ key b₂ b₃ value b₄ comment hpath hparts hvalue h₁ h₂ h₃ h₄ hcomment =>
    obtain ⟨r, hsettles, hr⟩ := readFrom?_entry hpath hparts hvalue h₂ h₃
    have hstops : Stops (b₄ ++ comment) := stops_blanks h₄ hcomment.stops
    rw [readFrom?_blanks (fun _ => rfl) h₁ (hpath.solid _), hr _ hstops]
    exact hsettles.readFrom?_lineEnd h₄ hcomment

/-- A line is read as its one statement, or as none. -/
theorem statements?_of_spellsLine {s : Option Statement} {cs : List Char} (h : SpellsLine s cs) :
    statements? cs = some s.toList := by
  cases h with
  | nothing hblanks hcomment =>
    change readFrom? {} _ = _
    rw [readFrom?_blanks (fun _ => rfl) hblanks hcomment.solid, readFrom?, tokens?_comment hcomment]
    rfl
  | statement h => exact Statement.statements?_of_spelled h

end ShopQuery.Toml
