-- The last line of a query is its limit. A reader splits the text at the line feeds that stand
-- outside of literals: the words of a search never add a line, while a sort expression is handed
-- on as it was written and adds one at each of its line feeds.
import Mathlib.Algebra.Group.Nat.Even
import ShopQuery.Proofs.NormalSearch
import ShopQuery.Proofs.TextIdentity

namespace ShopQuery

/-! ## The reader of lines -/

/-- What the reader has seen so far. -/
structure LineReading where
  /-- The lines that have ended, in order. -/
  lines : List String := []
  /-- What there is of the line that goes on. -/
  current : List Char := []
  /-- A literal is open. -/
  quoted : Bool := false

/-- One character is read. A line feed inside a literal is a character like any other. -/
def LineReading.step (s : LineReading) (c : Char) : LineReading :=
  if c = '\n' ∧ s.quoted = false then
    { s with lines := s.lines ++ [String.ofList s.current], current := [] }
  else
    { s with
      current := s.current ++ [c]
      quoted := if c = '\x27' then !s.quoted else s.quoted }

/-- A text is read from its beginning. -/
def readLines (text : String) : LineReading := text.toList.foldl LineReading.step {}

namespace Text

/-- What stands between the line feeds of a text. -/
def pieces (s : String) : List String := (s.toList.splitOn '\n').map String.ofList

/-- The line begins like a limit. -/
def limits (line : String) : Bool := "LIMIT ".toList.isPrefixOf line.toList

/-- A text on one line in which every literal is closed. -/
def Closed (t : String) : Prop := '\n' ∉ t.toList ∧ Even (t.toList.count '\x27')

/-- A text on one line whose last quote opens a literal, or closes one that was open before. -/
def HalfOpen (t : String) : Prop := '\n' ∉ t.toList ∧ ¬ Even (t.toList.count '\x27')

instance (t : String) : Decidable (Closed t) := inferInstanceAs (Decidable (_ ∧ _))

instance (t : String) : Decidable (HalfOpen t) := inferInstanceAs (Decidable (_ ∧ _))

end Text

/-! ## Steps and runs -/

namespace LineReading

theorem step_feed (ls : List String) (l : List Char) :
    step ⟨ls, l, false⟩ '\n' = ⟨ls ++ [String.ofList l], [], false⟩ := rfl

theorem step_of_ne {c : Char} (hquote : c ≠ '\x27') (hfeed : c ≠ '\n') (ls : List String)
    (l : List Char) (q : Bool) : step ⟨ls, l, q⟩ c = ⟨ls, l ++ [c], q⟩ := by
  simp [step, hquote, hfeed]

theorem step_quoted {c : Char} (hquote : c ≠ '\x27') (ls : List String) (l : List Char) :
    step ⟨ls, l, true⟩ c = ⟨ls, l ++ [c], true⟩ := by
  simp [step, hquote]

theorem run_quoted {cs : List Char} (h : '\x27' ∉ cs) (ls : List String) (l : List Char) :
    cs.foldl step ⟨ls, l, true⟩ = ⟨ls, l ++ cs, true⟩ := by
  induction cs generalizing l with
  | nil => simp
  | cons c cs ih =>
    rw [List.mem_cons, not_or] at h
    rw [List.foldl_cons, step_quoted (Ne.symm h.1), ih h.2]
    simp

/-- Outside of literals, a text without quotes and the line feed behind it leave one line for each
piece. The first piece ends the line that was going on. -/
theorem run_feed {cs l : List Char} (h : '\x27' ∉ cs) (hl : '\n' ∉ l) (ls : List String) :
    (cs ++ ['\n']).foldl step ⟨ls, l, false⟩
      = ⟨ls ++ ((l ++ cs).splitOn '\n').map String.ofList, [], false⟩ := by
  -- Each line feed ends a line, so the text is read with any start of a line in front of it.
  induction cs generalizing ls l with
  | nil => simp [step_feed, List.splitOn_eq_singleton hl]
  | cons c cs ih =>
    rw [List.mem_cons, not_or] at h
    rw [List.cons_append, List.foldl_cons]
    by_cases hc : c = '\n'
    · rw [hc, step_feed, ih h.2 List.not_mem_nil, List.splitOn_append_cons_self_of_not_mem hl]
      simp
    · have hlc : '\n' ∉ l ++ [c] := by simp [hl, Ne.symm hc]
      rw [step_of_ne (Ne.symm h.1) hc, ih h.2 hlc, List.append_assoc]
      rfl

/-- Without a line feed the line goes on, and each quote opens or closes a literal. -/
theorem run_flat {cs : List Char} (h : '\n' ∉ cs) (ls : List String) (l : List Char) (q : Bool) :
    cs.foldl step ⟨ls, l, q⟩ = ⟨ls, l ++ cs, if Even (cs.count '\x27') then q else !q⟩ := by
  induction cs generalizing l q with
  | nil => simp
  | cons c cs ih =>
    rw [List.mem_cons, not_or] at h
    have hstep : step ⟨ls, l, q⟩ c = ⟨ls, l ++ [c], if c = '\x27' then !q else q⟩ := by
      simp [step, Ne.symm h.1]
    rw [List.foldl_cons, hstep, ih h.2]
    by_cases hc : c = '\x27'
    · by_cases heven : Even (cs.count '\x27') <;> simp [hc, heven, Nat.even_add_one]
    · simp [hc]

end LineReading

/-! ## Texts without an end of a line -/

/-- A reader outside of literals stays on the line, and is outside of literals again. -/
def Unbroken (t : String) : Prop :=
  ∀ ls l, t.toList.foldl LineReading.step ⟨ls, l, false⟩ = ⟨ls, l ++ t.toList, false⟩

namespace Unbroken

theorem append {s t : String} (hs : Unbroken s) (ht : Unbroken t) : Unbroken (s ++ t) := by
  intro ls l
  rw [String.toList_append, List.foldl_append, hs, ht, List.append_assoc]

theorem of_closed {t : String} (h : Text.Closed t) : Unbroken t := by
  intro ls l
  rw [LineReading.run_flat h.1, if_pos h.2]

/-- What stands in a literal may have line feeds. -/
theorem of_between {a k b : String} (ha : Text.HalfOpen a) (hk : Text.Harmless k)
    (hb : Text.HalfOpen b) : Unbroken (a ++ k ++ b) := by
  intro ls l
  rw [String.toList_append, String.toList_append, List.foldl_append, List.foldl_append,
    LineReading.run_flat ha.1, if_neg ha.2, Bool.not_false,
    LineReading.run_quoted (Text.quote_not_mem hk), LineReading.run_flat hb.1, if_neg hb.2]
  simp

theorem intercalate {sep : String} {parts : List String} (hs : Unbroken sep)
    (hp : ∀ part ∈ parts, Unbroken part) : Unbroken (sep.intercalate parts) := by
  induction parts with
  | nil =>
    have hempty : Unbroken "" := of_closed (by decide)
    exact hempty
  | cons part rest ih =>
    have hrest := ih fun q hq => hp q (List.mem_cons_of_mem _ hq)
    have hpart := hp part List.mem_cons_self
    cases rest with
    | nil => rwa [String.intercalate_singleton]
    | cons next rest =>
      rw [String.intercalate_cons_cons]
      exact (hpart.append hs).append hrest

end Unbroken

/-- A reader at the beginning of a line, outside of literals, reads the text as these lines. -/
def ReadsAs (text : String) (lines : List String) : Prop :=
  ∀ ls, text.toList.foldl LineReading.step ⟨ls, [], false⟩ = ⟨ls ++ lines, [], false⟩

namespace ReadsAs

theorem append {s t : String} {ls ms : List String} (hs : ReadsAs s ls) (ht : ReadsAs t ms) :
    ReadsAs (s ++ t) (ls ++ ms) := by
  intro ks
  rw [String.toList_append, List.foldl_append, hs, ht, List.append_assoc]

theorem of_unbroken {line : String} (h : Unbroken line) : ReadsAs (line ++ "\n") [line] := by
  intro ls
  rw [String.toList_append, List.foldl_append, h]
  have hfeed : "\n".toList.foldl LineReading.step ⟨ls, [] ++ line.toList, false⟩
      = ⟨ls ++ [String.ofList line.toList], [], false⟩ := rfl
  rw [hfeed, String.ofList_toList]

theorem of_harmless {t : String} (h : Text.Harmless t) :
    ReadsAs (t ++ "\n") (Text.pieces t) := by
  intro ls
  rw [String.toList_append]
  exact LineReading.run_feed (Text.quote_not_mem h) List.not_mem_nil ls

theorem of_lines {lines : List String} (h : ∀ line ∈ lines, Unbroken line) :
    ReadsAs (Text.ofLines lines) lines := by
  induction lines with
  | nil => exact fun ls => by simp
  | cons line lines ih =>
    exact (of_unbroken (h line List.mem_cons_self)).append
      (ih fun l hl => h l (List.mem_cons_of_mem _ hl))

theorem readLines_eq {text : String} {lines : List String} (h : ReadsAs text lines) :
    readLines text = ⟨lines, [], false⟩ :=
  h []

end ReadsAs

/-! ## Pieces and limits -/

namespace Text

/-- What is put behind a text does not change its first letter. -/
theorem limits_append {s : String} {c : Char} (h : s.toList.head? = some c) (hc : c ≠ 'L')
    (t : String) : limits (s ++ t) = false := by
  obtain ⟨cs, hcs⟩ := List.head?_eq_some_iff.mp h
  have hfirst : ('L' == c) = false := beq_eq_false_iff_ne.mpr (Ne.symm hc)
  unfold limits
  rw [String.toList_append, hcs]
  change (('L' == c) && _) = false
  rw [hfirst, Bool.false_and]

/-- The first piece takes what is put in front. -/
theorem splitOn_append {c : Char} {xs : List Char} (h : c ∉ xs) (ys : List Char) :
    (xs ++ ys).splitOn c = (ys.splitOn c).modifyHead (xs ++ ·) := by
  induction xs with
  | nil =>
    rw [List.nil_append]
    cases ys.splitOn c <;> rfl
  | cons x xs ih =>
    rw [List.mem_cons, not_or] at h
    have hx : (x == c) = false := beq_eq_false_iff_ne.mpr (Ne.symm h.1)
    rw [List.cons_append, List.splitOn_cons_eq_if_modifyHead, ih h.2, hx]
    cases ys.splitOn c <;> rfl

theorem pieces_append {s : String} (h : '\n' ∉ s.toList) (t : String) :
    ∃ first, pieces (s ++ t) = (s ++ first) :: (pieces t).tail := by
  unfold pieces
  rw [String.toList_append, splitOn_append h]
  cases hc : t.toList.splitOn '\n' with
  | nil => exact absurd hc (List.splitOn_ne_nil _ _)
  | cons first rest => exact ⟨String.ofList first, by simp⟩

theorem closed_of_not_mem {t : String} (hfeed : '\n' ∉ t.toList) (hquote : '\x27' ∉ t.toList) :
    Closed t := by
  refine ⟨hfeed, ?_⟩
  rw [List.count_eq_zero.mpr hquote]
  decide

theorem closed_repr (n : Nat) : Closed n.repr :=
  closed_of_not_mem (not_mem_repr (by decide) n) (not_mem_repr (by decide) n)

end Text

/-! ## The line of a relationship -/

theorem Label.closed_var (l : Label) : Text.Closed l.var := by
  cases l <;> decide

theorem Label.unbroken_pattern (l : Label) : Unbroken l.pattern := by
  have hname : Text.Closed l.name := by cases l <;> decide
  have hopen : Unbroken "(" := .of_closed (by decide)
  have hcolon : Unbroken ": " := .of_closed (by decide)
  have hclose : Unbroken ")" := .of_closed (by decide)
  exact (((hopen.append (.of_closed l.closed_var)).append hcolon).append
    (.of_closed hname)).append hclose

namespace Traversal

variable {t : Traversal}

theorem limits_line (t : Traversal) : Text.limits t.line = false := by
  unfold line
  cases t.mode with
  | required => exact Text.limits_append rfl (by decide) _
  | optional => exact Text.limits_append rfl (by decide) _
  | made =>
    simp only [String.append_assoc]
    exact Text.limits_append rfl (by decide) _

theorem unbroken_pattern (hvar : Text.Closed t.var) (hname : Text.Closed t.name) :
    Unbroken t.pattern := by
  have hopen : Unbroken "-[" := .of_closed (by decide)
  have hcolon : Unbroken ":" := .of_closed (by decide)
  have hclose : Unbroken "]->" := .of_closed (by decide)
  exact (((((t.source.unbroken_pattern.append hopen).append (.of_closed hvar)).append
    hcolon).append (.of_closed hname)).append hclose).append t.target.unbroken_pattern

/-- A relationship that is made has its name between quotes. -/
theorem unbroken_line (hvar : Text.Closed t.var) (hfeed : '\n' ∉ t.name.toList)
    (hname : Text.Harmless t.name) : Unbroken t.line := by
  have hname' : Text.Closed t.name := Text.closed_of_not_mem hfeed (Text.quote_not_mem hname)
  unfold line
  cases t.mode with
  | required => exact Unbroken.append (.of_closed (by decide)) (unbroken_pattern hvar hname')
  | optional => exact Unbroken.append (.of_closed (by decide)) (unbroken_pattern hvar hname')
  | made =>
    have hcall : Unbroken "CALL apoc.create.vRelationship(" := .of_closed (by decide)
    have hquoted : Unbroken (", '" ++ t.name ++ "', \x7b\x7d, ") :=
      .of_between (by decide) hname (by decide)
    have hyield : Unbroken ") YIELD rel AS " := .of_closed (by decide)
    have hline := (((hcall.append (.of_closed t.source.closed_var)).append hquoted).append
      (.of_closed t.target.closed_var)).append (hyield.append (.of_closed hvar))
    simpa only [String.append_assoc] using hline

end Traversal

/-! ## The lines of a search -/

/-- A line of a text, and not one that begins like a limit. -/
structure Ordinary (line : String) : Prop where
  unbroken : Unbroken line
  other : Text.limits line = false

namespace Search

variable {s : Search} {p : Paging}

/-- The lines before the one that sorts. -/
def frontLines (s : Search) : List String :=
  (rootClauses s.keyword).flatMap Clause.lines
    ++ (Schema.retail.triggered s.asked).map (fun r => (r.traversal .optional).line)
    ++ (((s.body Schema.retail).orderCounting s).map Aggregation.line).toList
    ++ ["RETURN " ++ ", ".intercalate (s.body Schema.retail).returnedVars]

/-- The lines of a sort expression, the first of which says that it sorts. -/
def sortLines (s : Search) : List String :=
  s.orderBy.elim [] fun e => Text.pieces ("ORDER BY " ++ e)

theorem ordinary_wordsLine {k : String} (h : Text.Harmless k) : Ordinary (wordsLine k) := by
  refine ⟨.of_between (by decide) h (by decide), ?_⟩
  unfold wordsLine
  rw [String.append_assoc]
  exact Text.limits_append rfl (by decide) _

theorem ordinary_nameLine {k : String} (h : Text.Harmless k) : Ordinary (nameLine k) := by
  refine ⟨.of_between (by decide) h (by decide), ?_⟩
  unfold nameLine
  rw [String.append_assoc]
  exact Text.limits_append rfl (by decide) _

theorem ordinary_rootLines (h : s.Normal p) :
    ∀ line ∈ (rootClauses s.keyword).flatMap Clause.lines, Ordinary line := by
  have hproducts : Ordinary "MATCH (product: Product)" := ⟨.of_closed (by decide), by decide⟩
  rw [lines_rootClauses]
  cases hk : s.keyword with
  | none => simpa using hproducts
  | some k =>
    have hharmless := (h.words k hk).1
    simpa using ⟨ordinary_wordsLine hharmless, hproducts, ordinary_nameLine hharmless⟩

theorem closed_returnedVars (s : Search) :
    ∀ v ∈ (s.body Schema.retail).returnedVars, Text.Closed v := by
  have htable : ∀ rel ∈ Schema.retailRelationships, Text.Closed rel.var := by decide
  intro v hv
  rcases List.mem_append.mp hv with hv | hv
  · obtain ⟨l, _, rfl⟩ := List.mem_map.mp hv
    exact l.closed_var
  · rw [List.mem_mergeSort, vars_body] at hv
    obtain ⟨rel, hrel, rfl⟩ := List.mem_map.mp hv
    exact htable rel (List.mem_of_mem_filter hrel)

theorem ordinary_frontLines (h : s.Normal p) : ∀ line ∈ s.frontLines, Ordinary line := by
  have htable : ∀ rel ∈ Schema.retailRelationships,
      Text.Closed rel.var ∧ '\n' ∉ rel.name.toList ∧ Text.Harmless rel.name := by decide
  intro line hline
  unfold frontLines at hline
  rw [List.mem_append, List.mem_append, List.mem_append] at hline
  rcases hline with ((hroot | htriggered) | hcounting) | hreturn
  · exact ordinary_rootLines h line hroot
  · obtain ⟨rel, hrel, rfl⟩ := List.mem_map.mp htriggered
    obtain ⟨hvar, hfeed, hname⟩ := htable rel (List.mem_of_mem_filter hrel)
    exact ⟨Traversal.unbroken_line hvar hfeed hname, Traversal.limits_line _⟩
  · rw [mem_counting hcounting]
    exact ⟨.of_closed (by decide), by decide⟩
  · rw [List.mem_singleton.mp hreturn]
    have hword : Unbroken "RETURN " := .of_closed (by decide)
    have hvars : Unbroken (", ".intercalate (s.body Schema.retail).returnedVars) :=
      .intercalate (.of_closed (by decide)) fun v hv => .of_closed (s.closed_returnedVars v hv)
    exact ⟨hword.append hvars, Text.limits_append rfl (by decide) _⟩

/-- Of all that a text shows, the sort expression alone can bring in lines of its own. -/
theorem readsAs_plan (h : s.Normal p) : ReadsAs (s.plan Schema.retail).render.cypher
    (s.frontLines ++ s.sortLines ++ ["LIMIT " ++ toString s.limit.toNat]) := by
  have hfront : ReadsAs (Text.ofLines s.frontLines) s.frontLines :=
    .of_lines fun line hline => (ordinary_frontLines h line hline).unbroken
  have hsort : ReadsAs (Text.ofLines ((s.orderBy.filter fun e => !e.isEmpty).map
      ("ORDER BY " ++ ·)).toList) s.sortLines := by
    unfold sortLines
    cases ho : s.orderBy with
    | none => exact .of_lines (by simp)
    | some e =>
      obtain ⟨hharmless, hne, _⟩ := h.sorting e ho
      have hline : Text.Harmless ("ORDER BY " ++ e) :=
        Text.harmless_append.mpr ⟨by decide, hharmless⟩
      have hmeant : ((some e).filter fun e => !e.isEmpty) = some e := by simp [hne]
      have htext : Text.ofLines ["ORDER BY " ++ e] = "ORDER BY " ++ e ++ "\n" := by
        rw [Text.ofLines, Text.ofLines_nil, String.append_empty]
      rw [hmeant, Option.map_some, Option.toList_some, htext]
      exact .of_harmless hline
  have hlimit : Unbroken ("LIMIT " ++ toString s.limit.toNat) :=
    Unbroken.append (.of_closed (by decide)) (.of_closed (Text.closed_repr _))
  unfold Plan.render
  rw [lines_plan, Text.ofLines_append, Text.ofLines_append]
  exact (hfront.append hsort).append (.of_lines (by simpa using hlimit))

end Search

/-! ## The law -/

namespace Request

/-- The lines that the sort expression begins with its line feeds. -/
def laterSortLines (r : Request) : List String :=
  r.sorting.elim [] fun e => (Text.pieces e).tail

theorem one_le_size (r : Request) (p : Paging) : 1 ≤ r.size p := by
  rw [← limit_toSearch]
  exact p.one_le_clamp _

theorem size_le (r : Request) (p : Paging) : r.size p ≤ max 1 p.maxSize.toNat := by
  rw [← limit_toSearch]
  exact p.clamp_le_ceiling _

theorem filter_sortLines (r : Request) (p : Paging) :
    (r.toSearch p).sortLines.filter Text.limits = r.laterSortLines.filter Text.limits := by
  unfold Search.sortLines laterSortLines
  rw [orderBy_toSearch]
  cases r.sorting with
  | none => rfl
  | some e =>
    obtain ⟨first, hpieces⟩ := Text.pieces_append (s := "ORDER BY ") (by decide) e
    have hsorts : Text.limits ("ORDER BY " ++ first) = false :=
      Text.limits_append rfl (by decide) _
    rw [Option.elim_some, Option.elim_some, hpieces, List.filter_cons, hsorts]
    rfl

theorem filter_frontLines (r : Request) (p : Paging) :
    (r.toSearch p).frontLines.filter Text.limits = [] := by
  rw [List.filter_eq_nil_iff]
  intro line hline
  simp [(Search.ordinary_frontLines (r.normal_toSearch p) line hline).other]

end Request

/-- Split at the line feeds that stand outside of literals, the text ends in its one limit, a
number from one to the largest size. The words, the filters and the limit of a request never
add another line like it: the lines in front that begin like a limit are those of the sort
expression, and there are none exactly if the sort expression begins no such line. -/
theorem the_limit_is_the_last_line (p : Paging) (r : Request) :
    (∃ front, readLines (Schema.retail.explore p r).render.cypher
        = ⟨front ++ ["LIMIT " ++ toString (r.size p)], [], false⟩
      ∧ front.filter Text.limits = r.laterSortLines.filter Text.limits)
    ∧ (1 ≤ r.size p ∧ r.size p ≤ max 1 p.maxSize.toNat)
    ∧ ((readLines (Schema.retail.explore p r).render.cypher).lines.countP Text.limits = 1 ↔
        ∀ line ∈ r.laterSortLines, ¬ Text.limits line = true) := by
  have hread := (Search.readsAs_plan (r.normal_toSearch p)).readLines_eq
  rw [r.limit_toSearch] at hread
  have hfront : ((r.toSearch p).frontLines ++ (r.toSearch p).sortLines).filter Text.limits
      = r.laterSortLines.filter Text.limits := by
    rw [List.filter_append, r.filter_frontLines, r.filter_sortLines, List.nil_append]
  have hlast : Text.limits ("LIMIT " ++ toString (r.size p)) = true := by
    unfold Text.limits
    rw [String.toList_append, List.isPrefixOf_iff_prefix]
    exact List.prefix_append _ _
  refine ⟨⟨_, hread, hfront⟩, ⟨r.one_le_size p, r.size_le p⟩, ?_⟩
  -- One limit is the last line; all others are counted in the sort expression.
  have hcount : (readLines (Schema.retail.explore p r).render.cypher).lines.countP Text.limits
      = r.laterSortLines.countP Text.limits + 1 := by
    unfold Schema.explore
    rw [hread]
    simp only [List.countP_append, List.countP_cons_of_pos hlast, List.countP_nil]
    rw [← List.countP_append, List.countP_eq_length_filter, hfront,
      ← List.countP_eq_length_filter]
  rw [hcount, Nat.add_eq_right, List.countP_eq_zero]

/-- A sort expression with a line feed in it brings in a limit of its own, and a larger one. -/
theorem a_sort_expression_may_add_a_limit :
    (readLines (Schema.retail.explore {}
        ⟨none, .empty, some "product.product_name\nLIMIT 1000", none⟩).render.cypher).lines
      = ["MATCH (product: Product)", "RETURN product", "ORDER BY product.product_name",
        "LIMIT 1000", "LIMIT 10"]
    ∧ (readLines (Schema.retail.explore {}
        ⟨none, .empty, some "product.product_name\nLIMIT 1000", none⟩).render.cypher).lines.countP
        Text.limits ≠ 1 := by
  have hlines : (readLines (Schema.retail.explore {}
      ⟨none, .empty, some "product.product_name\nLIMIT 1000", none⟩).render.cypher).lines
      = ["MATCH (product: Product)", "RETURN product", "ORDER BY product.product_name",
        "LIMIT 1000", "LIMIT 10"] := by decide +kernel
  refine ⟨hlines, ?_⟩
  rw [hlines]
  decide

end ShopQuery
