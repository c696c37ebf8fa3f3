-- What a reader sees of a query who knows nothing but single quotes: one opens a literal, the
-- next one closes it. The words of a search fill two literals, and nothing that is outside of
-- the literals depends on them.
import ShopQuery.Proofs.QueryLines

namespace ShopQuery

/-! ## The reader -/

/-- What the reader has seen so far. -/
structure QuoteScan where
  /-- The literals that are closed, in order. -/
  literals : List String := []
  /-- What there is of the literal that is open, if one is. -/
  inside : Option (List Char) := none
  /-- Everything but the contents of literals. -/
  outside : List Char := []

/-- One character is read. -/
def QuoteScan.step (s : QuoteScan) (c : Char) : QuoteScan :=
  match s.inside with
  | none =>
    { s with
      inside := if c = '\x27' then some [] else none
      outside := s.outside ++ [c] }
  | some cs =>
    if c = '\x27' then
      { literals := s.literals ++ [String.ofList cs]
        inside := none
        outside := s.outside ++ [c] }
    else { s with inside := some (cs ++ [c]) }

/-- A text is read from its beginning. -/
def readQuotes (text : String) : QuoteScan := text.toList.foldl QuoteScan.step {}

/-! ## Steps and runs -/

namespace QuoteScan

theorem run_outside {cs : List Char} (h : '\x27' ∉ cs) (ls : List String) (out : List Char) :
    cs.foldl step ⟨ls, none, out⟩ = ⟨ls, none, out ++ cs⟩ := by
  induction cs generalizing out with
  | nil => rw [List.foldl_nil, List.append_nil]
  | cons c cs ih =>
    rw [List.mem_cons, not_or] at h
    have hstep : step ⟨ls, none, out⟩ c = ⟨ls, none, out ++ [c]⟩ := by
      unfold step
      simp only [if_neg (Ne.symm h.1)]
    rw [List.foldl_cons, hstep, ih h.2, List.append_assoc]
    rfl

theorem run_inside {cs : List Char} (h : '\x27' ∉ cs) (ls : List String) (ds out : List Char) :
    cs.foldl step ⟨ls, some ds, out⟩ = ⟨ls, some (ds ++ cs), out⟩ := by
  induction cs generalizing ds with
  | nil => rw [List.foldl_nil, List.append_nil]
  | cons c cs ih =>
    rw [List.mem_cons, not_or] at h
    have hstep : step ⟨ls, some ds, out⟩ c = ⟨ls, some (ds ++ [c]), out⟩ := by
      unfold step
      simp only [if_neg (Ne.symm h.1)]
    rw [List.foldl_cons, hstep, ih h.2, List.append_assoc]
    rfl

end QuoteScan

/-- A reader who is outside of literals reads the text as these literals with this around
them, is outside again at its end, and meets no double quote and no backslash. -/
structure Reads (text outside : String) (literals : List String) : Prop where
  run : ∀ ls out, text.toList.foldl QuoteScan.step ⟨ls, none, out⟩
    = ⟨ls ++ literals, none, out ++ outside.toList⟩
  clean : ∀ c ∈ text.toList, c ≠ '\x22' ∧ c ≠ '\x5c'

namespace Reads

theorem append {s t out more : String} {ls ms : List String} (hs : Reads s out ls)
    (ht : Reads t more ms) : Reads (s ++ t) (out ++ more) (ls ++ ms) := by
  constructor
  · intro ks o
    rw [String.toList_append, List.foldl_append, hs.run, ht.run, String.toList_append,
      List.append_assoc, List.append_assoc]
  · intro c hc
    rw [String.toList_append, List.mem_append] at hc
    rcases hc with hc | hc
    · exact hs.clean c hc
    · exact ht.clean c hc

/-- A harmless text is read as it is. -/
theorem of_harmless {t : String} (h : Text.Harmless t) : Reads t t [] := by
  constructor
  · intro ls out
    rw [List.append_nil]
    exact QuoteScan.run_outside (Text.quote_not_mem h) ls out
  · intro c hc
    exact ((Text.isQuotable_iff c).mp (Text.harmless_iff.mp h c hc)).2

theorem of_chars {cs : List Char} (h : cs.all Text.isQuotable = true) :
    Reads (String.ofList cs) (String.ofList cs) [] :=
  of_harmless (Text.harmless_ofList h)

/-- A harmless text between quotes is one literal. -/
theorem of_quoted {k : String} (h : Text.Harmless k) : Reads ("'" ++ k ++ "'") "''" [k] := by
  constructor
  · intro ls out
    rw [String.toList_append, String.toList_append, List.foldl_append, List.foldl_append]
    have hopen : "'".toList.foldl QuoteScan.step ⟨ls, none, out⟩
        = ⟨ls, some [], out ++ ['\x27']⟩ := rfl
    rw [hopen, QuoteScan.run_inside (Text.quote_not_mem h), List.nil_append]
    have hclose : "'".toList.foldl QuoteScan.step ⟨ls, some k.toList, out ++ ['\x27']⟩
        = ⟨ls ++ [String.ofList k.toList], none, out ++ ['\x27'] ++ ['\x27']⟩ := rfl
    rw [hclose, String.ofList_toList, List.append_assoc]
    rfl
  · intro c hc
    rw [String.toList_append, String.toList_append, List.mem_append, List.mem_append] at hc
    rcases hc with (hc | hc) | hc
    · rw [List.mem_singleton.mp hc]
      decide
    · exact ((Text.isQuotable_iff c).mp (Text.harmless_iff.mp h c hc)).2
    · rw [List.mem_singleton.mp hc]
      decide

theorem cons {line out : String} {lines outs ls ms : List String} (hl : Reads line out ls)
    (hs : Reads (Text.ofLines lines) (Text.ofLines outs) ms) :
    Reads (Text.ofLines (line :: lines)) (Text.ofLines (out :: outs)) (ls ++ ms) := by
  have hfeed : Reads "\n" "\n" [] := of_chars (by decide)
  have h := (hl.append hfeed).append hs
  rw [List.append_nil] at h
  exact h

theorem of_harmless_lines {lines : List String} (h : ∀ line ∈ lines, Text.Harmless line) :
    Reads (Text.ofLines lines) (Text.ofLines lines) [] := by
  induction lines with
  | nil => exact of_chars (by decide)
  | cons line lines ih =>
    exact (of_harmless (h line List.mem_cons_self)).cons
      (ih fun l hl => h l (List.mem_cons_of_mem _ hl))

/-- What is read from the beginning of a text. -/
theorem readQuotes_eq {text out : String} {ls : List String} (h : Reads text out ls) :
    readQuotes text = ⟨ls, none, out.toList⟩ := by
  have hrun := h.run [] []
  rw [List.nil_append, List.nil_append] at hrun
  exact hrun

end Reads

/-! ## The lines of a query -/

theorem reads_wordsLine {k : String} (h : Text.Harmless k) : Reads (wordsLine k)
    "CALL apoc.create.vNode([''], \x7bkeyword: ''\x7d) YIELD node AS keyword" ["Keyword", k] := by
  have hline : wordsLine k = "CALL apoc.create.vNode([" ++ ("'" ++ "Keyword" ++ "'")
      ++ "], \x7bkeyword: " ++ ("'" ++ k ++ "'") ++ "\x7d) YIELD node AS keyword" := by
    unfold wordsLine
    apply String.toList_injective
    simp
  have hstart : Reads "CALL apoc.create.vNode([" "CALL apoc.create.vNode([" [] :=
    .of_chars (by decide)
  have hlabel : Reads ("'" ++ "Keyword" ++ "'") "''" ["Keyword"] := .of_quoted (by decide)
  have hbetween : Reads "], \x7bkeyword: " "], \x7bkeyword: " [] := .of_chars (by decide)
  have hend : Reads "\x7d) YIELD node AS keyword" "\x7d) YIELD node AS keyword" [] :=
    .of_chars (by decide)
  rw [hline]
  exact (((hstart.append hlabel).append hbetween).append (.of_quoted h)).append hend

theorem reads_nameLine {k : String} (h : Text.Harmless k) :
    Reads (nameLine k) "WHERE product.product_name CONTAINS ''" [k] := by
  have hline : nameLine k = "WHERE product.product_name CONTAINS " ++ ("'" ++ k ++ "'") := by
    unfold nameLine
    apply String.toList_injective
    simp
  have hstart : Reads "WHERE product.product_name CONTAINS "
      "WHERE product.product_name CONTAINS " [] := .of_chars (by decide)
  rw [hline]
  exact hstart.append (.of_quoted h)

theorem reads_linkLine : Reads linkLine
    "CALL apoc.create.vRelationship(keyword, '', \x7b\x7d, product) YIELD rel AS r0" ["IS_IN"] := by
  have hstart : Reads "CALL apoc.create.vRelationship(keyword, "
      "CALL apoc.create.vRelationship(keyword, " [] := .of_chars (by decide)
  have hname : Reads ("'" ++ "IS_IN" ++ "'") "''" ["IS_IN"] := .of_quoted (by decide)
  have hend : Reads ", \x7b\x7d, product) YIELD rel AS r0"
      ", \x7b\x7d, product) YIELD rel AS r0" [] := .of_chars (by decide)
  exact (hstart.append hname).append hend

theorem Text.harmless_repr (n : Nat) : Harmless n.repr := by
  rw [harmless_iff]
  intro c hc
  rw [isQuotable_iff]
  refine ⟨?_, ?_, ?_⟩
  all_goals
    rintro rfl
    exact not_mem_repr (by decide) n hc

theorem forall_mem_onlyIf {α : Type} {P : α → Prop} {b : Bool} {xs : List α}
    (h : ∀ x ∈ xs, P x) : ∀ x ∈ onlyIf b xs, P x := by
  cases b
  · intro x hx
    cases hx
  · exact h

theorem harmless_onlyIf {b : Bool} {cs : List Char} (h : cs.all Text.isQuotable = true) :
    ∀ line ∈ onlyIf b [String.ofList cs], Text.Harmless line :=
  forall_mem_onlyIf (List.forall_mem_singleton.mpr (Text.harmless_ofList h))

namespace Request

theorem harmless_matchLines (r : Request) : ∀ line ∈ r.matchLines, Text.Harmless line := by
  unfold matchLines
  simp only [List.forall_mem_append]
  refine ⟨⟨harmless_onlyIf (by decide), forall_mem_onlyIf ?_⟩, harmless_onlyIf (by decide)⟩
  simp only [List.forall_mem_append]
  refine ⟨⟨⟨?_, harmless_onlyIf (by decide)⟩, harmless_onlyIf (by decide)⟩,
    harmless_onlyIf (by decide)⟩
  exact List.forall_mem_singleton.mpr (Text.harmless_ofList (by decide))

theorem harmless_returns (r : Request) : ∀ name ∈ r.returns, Text.Harmless name := by
  unfold returns
  simp only [List.forall_mem_append]
  refine ⟨⟨⟨⟨⟨⟨⟨⟨⟨?_, ?_⟩, ?_⟩, ?nodes⟩, ?_⟩, ?_⟩, ?_⟩, ?_⟩, ?steps⟩, ?_⟩
  case nodes =>
    apply forall_mem_onlyIf
    simp only [List.forall_mem_append]
    exact ⟨⟨harmless_onlyIf (by decide), harmless_onlyIf (by decide)⟩,
      harmless_onlyIf (by decide)⟩
  case steps =>
    apply forall_mem_onlyIf
    simp only [List.forall_mem_append]
    exact ⟨⟨⟨by decide, harmless_onlyIf (by decide)⟩, harmless_onlyIf (by decide)⟩,
      harmless_onlyIf (by decide)⟩
  · decide
  all_goals exact harmless_onlyIf (by decide)

theorem harmless_wordlessLines (r : Request) (p : Paging) :
    ∀ line ∈ r.wordlessLines p, Text.Harmless line := by
  unfold wordlessLines
  simp only [List.forall_mem_append]
  refine ⟨⟨⟨⟨r.harmless_matchLines, harmless_onlyIf (by decide)⟩, ?_⟩, ?_⟩, ?_⟩
  · rw [List.forall_mem_singleton, Text.harmless_append]
    exact ⟨by decide, Text.harmless_intercalate (by decide) r.harmless_returns⟩
  · intro line hline
    obtain ⟨e, he, rfl⟩ := Option.map_eq_some_iff.mp (Option.mem_toList.mp hline)
    rw [Text.harmless_append]
    exact ⟨by decide, harmless_sorting he⟩
  · rw [List.forall_mem_singleton, Text.harmless_append]
    exact ⟨by decide, Text.harmless_repr _⟩

/-- The literals of the query: the words twice between the two names that are always quoted,
and no literals without words. -/
def literals (r : Request) : List String :=
  match r.words with
  | some k => ["Keyword", k, k, "IS_IN"]
  | none => []

/-- The lines of the query with nothing in their literals. -/
def emptiedLines (r : Request) (p : Paging) : List String :=
  onlyIf r.words.isSome ["CALL apoc.create.vNode([''], \x7bkeyword: ''\x7d) YIELD node AS keyword"]
    ++ ["MATCH (product: Product)"]
    ++ onlyIf r.words.isSome
      ["WHERE product.product_name CONTAINS ''",
        "CALL apoc.create.vRelationship(keyword, '', \x7b\x7d, product) YIELD rel AS r0"]
    ++ r.wordlessLines p

theorem reads_queryLines (r : Request) (p : Paging) :
    Reads (Text.ofLines (r.queryLines p)) (Text.ofLines (r.emptiedLines p)) r.literals := by
  have hproducts : Reads "MATCH (product: Product)" "MATCH (product: Product)" [] :=
    .of_chars (by decide)
  have hrest := Reads.of_harmless_lines (r.harmless_wordlessLines p)
  unfold queryLines emptiedLines literals
  rcases hw : r.words with _ | k
  · exact hproducts.cons hrest
  · have hk := harmless_words hw
    exact (reads_wordsLine hk).cons (hproducts.cons ((reads_nameLine hk).cons
      (reads_linkLine.cons hrest)))

/-- Whether there are words decides more than one line; which words there are decides none. -/
theorem emptiedLines_eq_of_same {q r : Request} (hf : q.filters = r.filters)
    (ho : q.orderBy = r.orderBy) (hl : q.limit = r.limit)
    (hw : q.words.isSome = r.words.isSome) (p : Paging) :
    q.emptiedLines p = r.emptiedLines p := by
  have hhas : q.has = r.has := by
    funext l
    unfold has
    rw [hf]
  have hsorting : q.sorting = r.sorting := by
    unfold sorting
    rw [ho, hw, hhas]
  have hsize : q.size p = r.size p := by
    unfold size
    rw [hl]
  unfold emptiedLines wordlessLines matchLines returns counts
  rw [hhas, hsorting, hsize, hw]

end Request

theorem readQuotes_explore (p : Paging) (r : Request) :
    readQuotes (Schema.retail.explore p r).render.cypher
      = ⟨r.literals, none, (Text.ofLines (r.emptiedLines p)).toList⟩ := by
  unfold Plan.render
  rw [Request.lines_explore]
  exact (r.reads_queryLines p).readQuotes_eq

/-! ## The law -/

/-- A reader of quotes meets no double quote and no backslash, is outside of literals at the
end, and has read the words twice and nothing else of them. Two requests that differ in their
words alone leave the same text outside of the literals. -/
theorem words_stay_between_their_quotes (p : Paging) (r : Request) :
    (∀ c ∈ (Schema.retail.explore p r).render.cypher.toList, c ≠ '\x22' ∧ c ≠ '\x5c')
    ∧ (readQuotes (Schema.retail.explore p r).render.cypher).inside = none
    ∧ (readQuotes (Schema.retail.explore p r).render.cypher).literals = r.literals
    ∧ ∀ q : Request, q.filters = r.filters → q.orderBy = r.orderBy → q.limit = r.limit →
        q.words.isSome → r.words.isSome →
        (readQuotes (Schema.retail.explore p q).render.cypher).outside
          = (readQuotes (Schema.retail.explore p r).render.cypher).outside := by
  refine ⟨?_, ?_, ?_, ?_⟩
  · unfold Plan.render
    rw [Request.lines_explore]
    exact (r.reads_queryLines p).clean
  · rw [readQuotes_explore]
  · rw [readQuotes_explore]
  · intro q hf ho hl hq hr
    rw [readQuotes_explore, readQuotes_explore,
      Request.emptiedLines_eq_of_same hf ho hl (hq.trans hr.symm)]

/-- One keyword has a quote in it and the other one a line like those of a query. -/
theorem two_keywords_leave_one_text :
    (readQuotes (Schema.retail.explore {}
        ⟨some "it's", .empty, none, none⟩).render.cypher).outside
      = (readQuotes (Schema.retail.explore {}
        ⟨some "lamp\nLIMIT 1", .empty, none, none⟩).render.cypher).outside :=
  (words_stay_between_their_quotes {} ⟨some "lamp\nLIMIT 1", .empty, none, none⟩).2.2.2
    ⟨some "it's", .empty, none, none⟩ rfl rfl rfl (by decide) (by decide)

end ShopQuery
