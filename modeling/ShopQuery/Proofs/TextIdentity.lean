-- A query text names its plan. The words and the sort expression may be any texts, with line
-- feeds in them and lines that look like those of a query; still no two plans share a text.
import Mathlib.Data.List.Nodup
import ShopQuery.Proofs.SearchBody

namespace ShopQuery

/-! ## Texts that can be read in one way only -/

namespace Text

theorem cancel_before {c : Char} {xs ys us vs : List Char} (hx : c ∉ xs) (hy : c ∉ ys)
    (h : xs ++ c :: us = ys ++ c :: vs) : xs = ys ∧ us = vs := by
  induction xs generalizing ys with
  | nil =>
    cases ys with
    | nil => exact ⟨rfl, (List.cons.inj h).2⟩
    | cons y ys =>
      obtain ⟨rfl, _⟩ := List.cons.inj h
      exact absurd List.mem_cons_self hy
  | cons x xs ih =>
    cases ys with
    | nil =>
      obtain ⟨rfl, _⟩ := List.cons.inj h
      exact absurd List.mem_cons_self hx
    | cons y ys =>
      obtain ⟨rfl, ht⟩ := List.cons.inj h
      rw [List.mem_cons, not_or] at hx hy
      obtain ⟨rfl, hs⟩ := ih hx.2 hy.2 ht
      exact ⟨rfl, hs⟩

theorem cancel_after {c : Char} {xs ys us vs : List Char} (hu : c ∉ us) (hv : c ∉ vs)
    (h : xs ++ c :: us = ys ++ c :: vs) : xs = ys ∧ us = vs := by
  have hr := congrArg List.reverse h
  rw [List.reverse_append, List.reverse_append, List.reverse_cons, List.reverse_cons,
    List.append_assoc, List.append_assoc] at hr
  obtain ⟨h1, h2⟩ := cancel_before (by rwa [List.mem_reverse]) (by rwa [List.mem_reverse]) hr
  exact ⟨List.reverse_injective h2, List.reverse_injective h1⟩

/-- The line holds no line feed, and does not begin like the line that returns. -/
def BeforeReturn (line : String) : Prop := '\n' ∉ line.toList ∧ line.toList.head? ≠ some 'R'

instance (line : String) : Decidable (BeforeReturn line) := inferInstanceAs (Decidable (_ ∧ _))

theorem toList_ofLines_cons (line : String) (lines : List String) :
    (ofLines (line :: lines)).toList = line.toList ++ '\n' :: (ofLines lines).toList := by
  rw [ofLines, String.toList_append, String.toList_append, List.append_assoc]
  rfl

/-- Where the line that returns begins can be seen from the lines alone. -/
theorem begin_differently {line : String} {lines : List String} {s t : String}
    (hl : BeforeReturn line) (hs : s.toList.head? = some 'R') :
    ofLines (line :: lines) ++ t ≠ s := by
  intro h
  rw [← h, String.toList_append, toList_ofLines_cons] at hs
  rcases hc : line.toList with _ | ⟨c, cs⟩
  · rw [hc] at hs
    simp at hs
  · rw [hc] at hs
    exact hl.2 (by rw [hc]; exact hs)

theorem cancel_lines {a b : List String} {s t : String} (ha : ∀ l ∈ a, BeforeReturn l)
    (hb : ∀ l ∈ b, BeforeReturn l) (hs : s.toList.head? = some 'R')
    (ht : t.toList.head? = some 'R') (h : ofLines a ++ s = ofLines b ++ t) : a = b ∧ s = t := by
  induction a generalizing b with
  | nil =>
    rw [ofLines_nil, String.empty_append] at h
    cases b with
    | nil => exact ⟨rfl, by rw [h, ofLines_nil, String.empty_append]⟩
    | cons m b => exact absurd h.symm (begin_differently (hb m List.mem_cons_self) hs)
  | cons l a ih =>
    cases b with
    | nil =>
      rw [ofLines_nil, String.empty_append] at h
      exact absurd h (begin_differently (ha l List.mem_cons_self) ht)
    | cons m b =>
      rw [← String.toList_inj, String.toList_append, String.toList_append, toList_ofLines_cons,
        toList_ofLines_cons, List.append_assoc, List.append_assoc, List.cons_append,
        List.cons_append] at h
      obtain ⟨hlm, hrest⟩ :=
        cancel_before (ha l List.mem_cons_self).1 (hb m List.mem_cons_self).1 h
      rw [← String.toList_append, ← String.toList_append, String.toList_inj] at hrest
      obtain ⟨rfl, hst⟩ := ih (fun l hl => ha l (List.mem_cons_of_mem _ hl))
        (fun l hl => hb l (List.mem_cons_of_mem _ hl)) hrest
      rw [String.toList_inj] at hlm
      exact ⟨by rw [hlm], hst⟩

end Text

/-! ## The parts of a text -/

namespace Search

/-- What every search has that comes from a request: words without quotes, and no empty sort
expression. -/
structure Tidy (s : Search) : Prop where
  words : ∀ k, s.keyword = some k → Text.Harmless k
  sorting : ∀ e, s.orderBy = some e → e ≠ ""

/-- The lines before the one that returns, those of the words left out. -/
def middleLines (s : Search) : List String :=
  (Schema.retail.triggered s.asked).map (fun r => (r.traversal .optional).line)
    ++ (((s.body Schema.retail).orderCounting s).map Aggregation.line).toList

/-- The lines after the one that returns. -/
def tailLines (s : Search) : List String :=
  (s.orderBy.map ("ORDER BY " ++ ·)).toList ++ ["LIMIT " ++ toString s.limit.toNat]

def returnLine (s : Search) : String :=
  "RETURN " ++ ", ".intercalate (s.body Schema.retail).returnedVars

theorem text_plan {s : Search} (h : s.Tidy) : (s.plan Schema.retail).render.cypher =
    Text.ofLines ((rootClauses s.keyword).flatMap Clause.lines)
      ++ (Text.ofLines s.middleLines ++ Text.ofLines (s.returnLine :: s.tailLines)) := by
  have hsort : (s.orderBy.filter fun e => !e.isEmpty) = s.orderBy := by
    rcases ho : s.orderBy with _ | e
    · rfl
    · simp [h.sorting e ho]
  unfold Plan.render
  rw [lines_plan, hsort, ← Text.ofLines_append, ← Text.ofLines_append]
  unfold middleLines tailLines returnLine
  simp only [List.append_assoc]
  rfl

/-- The words stand before the first quote that follows them. -/
theorem cancel_words {k l : String} {x y : String} (hk : Text.Harmless k) (hl : Text.Harmless l)
    (h : wordsLine k ++ x = wordsLine l ++ y) : k = l := by
  have hquote : "'\x7d) YIELD node AS keyword".toList
      = '\x27' :: "\x7d) YIELD node AS keyword".toList := rfl
  unfold wordsLine at h
  rw [← String.toList_inj, String.toList_append, String.toList_append, String.toList_append,
    String.toList_append, String.toList_append, String.toList_append, hquote] at h
  simp only [List.append_assoc, List.cons_append] at h
  have hcut := List.append_cancel_left h
  exact String.toList_inj.mp
    (Text.cancel_before (Text.quote_not_mem hk) (Text.quote_not_mem hl) hcut).1

/-- A text with words begins otherwise than one without. -/
theorem words_begin_differently (k x y : String) :
    wordsLine k ++ x ≠ "MATCH (product: Product)" ++ y := by
  intro h
  unfold wordsLine at h
  rw [← String.toList_inj] at h
  simp at h

theorem cancel_root {v w : Option String} {x y : String} (hv : ∀ k, v = some k → Text.Harmless k)
    (hw : ∀ k, w = some k → Text.Harmless k)
    (h : Text.ofLines ((rootClauses v).flatMap Clause.lines) ++ x
      = Text.ofLines ((rootClauses w).flatMap Clause.lines) ++ y) : v = w ∧ x = y := by
  have hvw : v = w := by
    rw [lines_rootClauses, lines_rootClauses] at h
    rcases v with _ | k <;> rcases w with _ | l
    · rfl
    · simp only [Option.map_none, Option.map_some, Option.toList_none, Option.toList_some,
        List.nil_append, List.append_nil, List.cons_append, Text.ofLines, String.append_assoc] at h
      exact absurd h.symm (words_begin_differently _ _ _)
    · simp only [Option.map_none, Option.map_some, Option.toList_none, Option.toList_some,
        List.nil_append, List.append_nil, List.cons_append, Text.ofLines, String.append_assoc] at h
      exact absurd h (words_begin_differently _ _ _)
    · simp only [Option.map_some, Option.toList_some, List.cons_append, Text.ofLines,
        String.append_assoc] at h
      rw [cancel_words (hv k rfl) (hw l rfl) h]
  subst hvw
  exact ⟨rfl, (String.append_right_inj _).mp h⟩

/-- The line that sorts, as the characters of a text. -/
def sortChars : Option String → List Char
  | none => []
  | some e => "ORDER BY ".toList ++ (e.toList ++ ['\n'])

theorem sortChars_injective : Function.Injective sortChars := by
  intro o q h
  rcases o with _ | e <;> rcases q with _ | f
  · rfl
  · cases h
  · cases h
  · have hcut := List.append_cancel_left h
    rw [String.toList_inj.mp (List.append_cancel_right hcut)]

theorem toList_tailLines (s : Search) : (Text.ofLines s.tailLines).toList =
    (sortChars s.orderBy ++ "LIMIT".toList) ++ ' ' :: (s.limit.toNat.repr.toList ++ ['\n']) := by
  unfold tailLines sortChars
  rcases s.orderBy with _ | e
  · simp [Text.ofLines]
  · simp [Text.ofLines]

/-- The size stands after the last blank, so the sort expression is all before it. -/
theorem cancel_tail {s t : Search} (h : Text.ofLines s.tailLines = Text.ofLines t.tailLines) :
    s.orderBy = t.orderBy ∧ s.limit = t.limit := by
  have hblank : ∀ n : Nat, ' ' ∉ n.repr.toList ++ ['\n'] := by
    intro n hm
    rcases List.mem_append.mp hm with hm | hm
    · exact Text.not_mem_repr (by decide) n hm
    · exact absurd (List.mem_singleton.mp hm) (by decide)
  rw [← String.toList_inj, toList_tailLines, toList_tailLines] at h
  obtain ⟨hfront, hsize⟩ := Text.cancel_after (hblank _) (hblank _) h
  refine ⟨sortChars_injective (List.append_cancel_right hfront), ?_⟩
  exact UInt32.toNat_inj.mp (Text.digits_injective (List.append_cancel_right hsize))

/-! ## The lines between the words and the line that returns -/

theorem mem_counting {s : Search} {schema : Schema} {l : String}
    (h : l ∈ (((s.body schema).orderCounting s).map Aggregation.line).toList) :
    l = "WITH *, COUNT(order) as order_count" := by
  unfold Body.orderCounting at h
  split at h
  · exact List.mem_singleton.mp h
  · cases h

/-- In the retail schema no two relationships have one line. -/
theorem retail_line_injective {a b : Relationship} (ha : a ∈ Schema.retailRelationships)
    (hb : b ∈ Schema.retailRelationships)
    (h : (a.traversal .optional).line = (b.traversal .optional).line) : a = b := by
  have htable : (Schema.retailRelationships.map fun r => (r.traversal .optional).line).Nodup := by
    decide +kernel
  exact List.inj_on_of_nodup_map htable ha hb h

theorem beforeReturn_middleLines (s : Search) : ∀ l ∈ s.middleLines, Text.BeforeReturn l := by
  have htable : ∀ rel ∈ Schema.retailRelationships,
      Text.BeforeReturn (rel.traversal .optional).line := by decide +kernel
  intro l hl
  rcases List.mem_append.mp hl with hl | hl
  · obtain ⟨rel, hrel, rfl⟩ := List.mem_map.mp hl
    exact htable rel (List.mem_of_mem_filter hrel)
  · rw [mem_counting hl]
    decide

/-- Whether a relationship is followed can be seen from the lines. -/
theorem line_mem_middleLines (s : Search) {rel : Relationship}
    (h : rel ∈ Schema.retailRelationships) :
    (rel.traversal .optional).line ∈ s.middleLines ↔ rel.trigger.fires s.asked = true := by
  have htable : ∀ rel ∈ Schema.retailRelationships,
      (rel.traversal .optional).line ≠ "WITH *, COUNT(order) as order_count" := by decide
  unfold middleLines
  rw [List.mem_append]
  constructor
  · rintro (hl | hl)
    · obtain ⟨other, hother, hline⟩ := List.mem_map.mp hl
      obtain ⟨hmem, hfires⟩ := List.mem_filter.mp hother
      rw [← retail_line_injective hmem h hline]
      exact hfires
    · exact absurd (mem_counting hl) (htable rel h)
  · intro hfires
    exact Or.inl (List.mem_map.mpr ⟨rel, List.mem_filter.mpr ⟨h, hfires⟩, rfl⟩)

theorem triggered_eq_of_middleLines {s t : Search} (h : s.middleLines = t.middleLines) :
    Schema.retail.triggered s.asked = Schema.retail.triggered t.asked := by
  apply List.filter_congr
  intro rel hrel
  rw [Bool.eq_iff_iff, ← line_mem_middleLines s hrel, ← line_mem_middleLines t hrel, h]

/-- A text can be read back: it has one keyword, one set of relationships, one sort expression
and one size. -/
theorem same_of_text {s t : Search} (hs : s.Tidy) (ht : t.Tidy)
    (h : (s.plan Schema.retail).render = (t.plan Schema.retail).render) :
    s.keyword = t.keyword ∧ Schema.retail.triggered s.asked = Schema.retail.triggered t.asked
      ∧ s.orderBy = t.orderBy ∧ s.limit = t.limit := by
  have hreturn : ∀ u : Search,
      (Text.ofLines (u.returnLine :: u.tailLines)).toList.head? = some 'R' := by
    intro u
    unfold Text.ofLines returnLine
    rw [String.append_assoc, String.append_assoc, String.toList_append]
    rfl
  have htext := congrArg Query.cypher h
  rw [text_plan hs, text_plan ht] at htext
  obtain ⟨hk, hrest⟩ := cancel_root hs.words ht.words htext
  obtain ⟨hmiddle, hend⟩ := Text.cancel_lines (beforeReturn_middleLines s)
    (beforeReturn_middleLines t) (hreturn s) (hreturn t) hrest
  have hr := triggered_eq_of_middleLines hmiddle
  have hline : s.returnLine = t.returnLine := by
    unfold returnLine
    rw [body_eq_of_same hk hr]
  rw [Text.ofLines, Text.ofLines, hline] at hend
  obtain ⟨ho, hl⟩ := cancel_tail ((String.append_right_inj _).mp hend)
  exact ⟨hk, hr, ho, hl⟩

end Search

/-! ## The law -/

namespace Request

theorem tidy_toSearch (r : Request) (p : Paging) : (r.toSearch p).Tidy := by
  constructor
  · intro k hk
    rw [keyword_toSearch] at hk
    exact harmless_words hk
  · intro e he
    rw [orderBy_toSearch] at he
    exact sorting_ne_empty he

/-- The relationships that are followed are known by the labels that they bring in. -/
theorem triggered_eq_iff (r q : Request) :
    Schema.retail.triggered r.asked = Schema.retail.triggered q.asked ↔ r.joins = q.joins := by
  rw [triggered_asked, triggered_asked]
  constructor
  · intro h
    have htable : ∀ l ∈ Label.all, l ≠ .product →
        ∃ rel ∈ Schema.retailRelationships, rel.trigger.label = l := by decide
    funext l
    by_cases hl : l = .product
    · rw [hl]
      rfl
    · obtain ⟨rel, hrel, rfl⟩ := htable l (Label.mem_all l) hl
      have hmem : rel ∈ Schema.retailRelationships.filter (fun rel => r.joins rel.trigger.label) ↔
          rel ∈ Schema.retailRelationships.filter (fun rel => q.joins rel.trigger.label) := by
        rw [h]
      rw [List.mem_filter, List.mem_filter] at hmem
      rw [Bool.eq_iff_iff]
      exact ⟨fun hr => (hmem.mp ⟨hrel, hr⟩).2, fun hq => (hmem.mpr ⟨hrel, hq⟩).2⟩
  · intro h
    rw [h]

end Request

/-- Two queries have one text if and only if their requests have the same words, bring in the
same labels, sort alike and have one size; and then they have one plan. So neither the words
nor a sort expression can make two plans look alike. -/
theorem a_text_names_its_plan (p₁ p₂ : Paging) (r₁ r₂ : Request) :
    ((Schema.retail.explore p₁ r₁).render = (Schema.retail.explore p₂ r₂).render ↔
      r₁.words = r₂.words ∧ r₁.joins = r₂.joins ∧ r₁.sorting = r₂.sorting
        ∧ r₁.size p₁ = r₂.size p₂) ∧
    ((Schema.retail.explore p₁ r₁).render = (Schema.retail.explore p₂ r₂).render ↔
      Schema.retail.explore p₁ r₁ = Schema.retail.explore p₂ r₂) := by
  have hread : (Schema.retail.explore p₁ r₁).render = (Schema.retail.explore p₂ r₂).render →
      r₁.words = r₂.words ∧ r₁.joins = r₂.joins ∧ r₁.sorting = r₂.sorting
        ∧ r₁.size p₁ = r₂.size p₂ := by
    intro h
    obtain ⟨hk, hr, ho, hl⟩ := Search.same_of_text (r₁.tidy_toSearch p₁) (r₂.tidy_toSearch p₂) h
    rw [Request.keyword_toSearch, Request.keyword_toSearch] at hk
    rw [Request.orderBy_toSearch, Request.orderBy_toSearch] at ho
    refine ⟨hk, (Request.triggered_eq_iff r₁ r₂).mp hr, ho, ?_⟩
    rw [← Request.limit_toSearch, ← Request.limit_toSearch, hl]
  have hplan : r₁.words = r₂.words ∧ r₁.joins = r₂.joins ∧ r₁.sorting = r₂.sorting
      ∧ r₁.size p₁ = r₂.size p₂ →
      Schema.retail.explore p₁ r₁ = Schema.retail.explore p₂ r₂ := by
    rintro ⟨hk, hj, ho, hl⟩
    rw [← Request.keyword_toSearch r₁ p₁, ← Request.keyword_toSearch r₂ p₂] at hk
    rw [← Request.orderBy_toSearch r₁ p₁, ← Request.orderBy_toSearch r₂ p₂] at ho
    rw [← Request.limit_toSearch, ← Request.limit_toSearch] at hl
    exact Search.plan_eq_of_same hk ((Request.triggered_eq_iff r₁ r₂).mpr hj) ho
      (UInt32.toNat_inj.mp hl)
  exact ⟨⟨hread, fun h => congrArg Plan.render (hplan h)⟩,
    ⟨fun h => hplan (hread h), congrArg Plan.render⟩⟩

end ShopQuery
