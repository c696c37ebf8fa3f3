-- The lines of a query text. Whatever clauses a plan has, if the texts that they show have no
-- line feeds then the text has the lines of each clause in turn, and after them a line for each
-- later stage that the plan has.
import ShopQuery.Proofs.LimitLine

namespace ShopQuery

/-! ## The texts that a plan shows -/

/-- The text of a value as it was given. -/
def Literal.content : Literal → String
  | text content => content
  | number digits => digits

/-- The texts that the lines of a clause show. Only a node that is made shows properties. -/
def Clause.texts : Clause → List String
  | node _ .made properties => properties.flatMap fun p => [p.1, p.2.content]
  | node _ _ _ => []
  | lookup _ key value => [key, value.content]
  | contains _ property needle => [property, needle.content]
  | traversal step => [step.var, step.name]

def Aggregation.texts (a : Aggregation) : List String := [a.function, a.argument, a.name]

def Projection.texts : Projection → List String
  | all => []
  | vars names => names

/-- All texts that the lines of a plan show. -/
def Plan.texts (p : Plan) : List String :=
  p.body.clauses.flatMap Clause.texts ++ p.aggregation.toList.flatMap Aggregation.texts
    ++ p.projection.texts ++ p.orderBy.toList

/-- The stages after the clauses: the word that the line of a stage begins with, and what follows
the word where the plan has the stage. -/
def Plan.stages (p : Plan) : List (String × Option String) :=
  [ ("WITH *, ", p.aggregation.map fun a => a.function ++ "(" ++ a.argument ++ ") as " ++ a.name),
    ("RETURN ", some p.projection.returned),
    ("ORDER BY ", p.orderBy.filter fun e => !e.isEmpty),
    ("LIMIT ", p.limit.map fun n => toString n.toNat) ]

/-- The line of a stage, if there is one. -/
def stageLines (stage : String × Option String) : List String :=
  (stage.2.map (stage.1 ++ ·)).toList

/-! ## Texts on one line -/

namespace Text

/-- A text without a line feed. -/
def OneLine (t : String) : Prop := '\n' ∉ t.toList

instance (t : String) : Decidable (OneLine t) := inferInstanceAs (Decidable (_ ∉ _))

theorem OneLine.append {s t : String} (hs : OneLine s) (ht : OneLine t) : OneLine (s ++ t) := by
  unfold OneLine
  rw [String.toList_append, List.mem_append, not_or]
  exact ⟨hs, ht⟩

theorem OneLine.intercalate {sep : String} {parts : List String} (hs : OneLine sep)
    (hp : ∀ part ∈ parts, OneLine part) : OneLine (sep.intercalate parts) := by
  induction parts with
  | nil => exact (by decide : OneLine "")
  | cons part rest ih =>
    have hrest := ih fun q hq => hp q (List.mem_cons_of_mem _ hq)
    have hpart := hp part List.mem_cons_self
    cases rest with
    | nil => rwa [String.intercalate_singleton]
    | cons next rest =>
      rw [String.intercalate_cons_cons]
      exact (hpart.append hs).append hrest

/-- Split at its line feeds, a text of lines gives these lines, and nothing behind the last. -/
theorem pieces_ofLines {lines : List String} (h : ∀ line ∈ lines, OneLine line) :
    pieces (ofLines lines) = lines ++ [""] := by
  induction lines with
  | nil => rfl
  | cons line rest ih =>
    have hrest := ih fun l hl => h l (List.mem_cons_of_mem _ hl)
    unfold pieces at hrest ⊢
    rw [toList_ofLines_cons,
      List.splitOn_append_cons_self_of_not_mem (h line List.mem_cons_self), List.map_cons, hrest,
      String.ofList_toList, List.cons_append]

theorem getLast?_ofLines {lines : List String} (h : lines ≠ []) :
    (ofLines lines).toList.getLast? = some '\n' := by
  rw [← List.dropLast_concat_getLast h, ofLines_append, String.toList_append, toList_ofLines_cons,
    ofLines_nil, String.toList_empty, List.getLast?_append_of_ne_nil _ (by simp),
    List.getLast?_concat]

/-! ## How lines begin -/

/-- The line begins with a word. -/
def opensWith (word line : String) : Bool := word.toList.isPrefixOf line.toList

/-- What is put behind a line does not change how it begins. -/
theorem opensWith_append {word line : String} (h : opensWith word line = true) (rest : String) :
    opensWith word (line ++ rest) = true := by
  unfold opensWith at *
  rw [List.isPrefixOf_iff_prefix] at *
  rw [String.toList_append]
  exact h.trans (List.prefix_append _ _)

theorem ne_empty_of_opensWith {word line : String} (hw : word ≠ "")
    (h : opensWith word line = true) : line ≠ "" := by
  rintro rfl
  unfold opensWith at h
  rw [List.isPrefixOf_iff_prefix] at h
  exact hw (String.toList_inj.mp (List.prefix_nil.mp h))

/-- Of two words that a line begins with, one begins with the other. -/
theorem opensWith_either {v w line : String} (hv : opensWith v line = true)
    (hw : opensWith w line = true) : opensWith v w = true ∨ opensWith w v = true := by
  unfold opensWith at *
  simp only [List.isPrefixOf_iff_prefix] at *
  exact List.prefix_or_prefix_of_prefix hv hw

end Text

/-- How the lines of clauses begin. -/
def clauseWords : List String := ["MATCH ", "OPTIONAL MATCH ", "CALL ", "WHERE "]

/-! ## The lines of a clause -/

theorem Label.oneLine (l : Label) : Text.OneLine l.var ∧ Text.OneLine l.name := by
  cases l <;> decide

theorem Literal.oneLine_render {v : Literal} (h : Text.OneLine v.content) :
    Text.OneLine v.render := by
  have hquote : Text.OneLine "'" := by decide
  cases v with
  | text content => exact (hquote.append h).append hquote
  | number digits => exact h

theorem Label.oneLine_pattern (l : Label) : Text.OneLine l.pattern := by
  cases l <;> decide

theorem Traversal.oneLine_line {t : Traversal} (hvar : Text.OneLine t.var)
    (hname : Text.OneLine t.name) : Text.OneLine t.line := by
  have hpattern : Text.OneLine t.pattern :=
    (((((t.source.oneLine_pattern.append (by decide)).append hvar).append (by decide)).append
      hname).append (by decide)).append t.target.oneLine_pattern
  unfold line
  cases t.mode with
  | required => exact Text.OneLine.append (by decide) hpattern
  | optional => exact Text.OneLine.append (by decide) hpattern
  | made =>
    have hcall : Text.OneLine "CALL apoc.create.vRelationship(" := by decide
    exact ((((((hcall.append t.source.oneLine.1).append (by decide)).append hname).append
      (by decide)).append t.target.oneLine.1).append (by decide)).append hvar

theorem oneLine_renderProperties {properties : List (String × Literal)}
    (h : ∀ t ∈ properties.flatMap fun p => [p.1, p.2.content], Text.OneLine t) :
    Text.OneLine (renderProperties properties) := by
  apply Text.OneLine.intercalate (by decide)
  intro part hpart
  obtain ⟨p, hp, rfl⟩ := List.mem_map.mp hpart
  have hkey := h p.1 (List.mem_flatMap.mpr ⟨p, hp, by simp⟩)
  have hvalue := h p.2.content (List.mem_flatMap.mpr ⟨p, hp, by simp⟩)
  exact (hkey.append (by decide)).append (Literal.oneLine_render hvalue)

/-- Whatever stands in the second of two lists that match has its partner in the first. -/
theorem exists_of_forall₂ {α β : Type} {R : α → β → Prop} {xs : List α} {ys : List β}
    (h : List.Forall₂ R xs ys) : ∀ y ∈ ys, ∃ x ∈ xs, R x y := by
  induction h with
  | nil => exact fun _ hy => nomatch hy
  | @cons x y xs ys hxy _ ih =>
    rw [List.forall_mem_cons]
    refine ⟨⟨x, List.mem_cons_self, hxy⟩, fun z hz => ?_⟩
    obtain ⟨w, hw, hwz⟩ := ih z hz
    exact ⟨w, List.mem_cons_of_mem _ hw, hwz⟩

namespace Clause

/-- How the lines of a clause may begin. A lookup has two lines, one that matches and then one
that says where, and any other clause has one. -/
def openings : Clause → List (List String)
  | lookup .. => [["MATCH "], ["WHERE "]]
  | _ => [clauseWords]

theorem opens_lines (c : Clause) : List.Forall₂
    (fun words line => ∃ word ∈ words, Text.opensWith word line = true) c.openings c.lines := by
  cases c with
  | node label mode properties =>
    cases mode with
    | required => exact .cons ⟨"MATCH ", by decide, Text.opensWith_append (by decide) _⟩ .nil
    | optional =>
      exact .cons ⟨"OPTIONAL MATCH ", by decide, Text.opensWith_append (by decide) _⟩ .nil
    | made =>
      refine .cons ⟨"CALL ", by decide, ?_⟩ .nil
      simp only [String.append_assoc]
      exact Text.opensWith_append (by decide) _
  | lookup label key value =>
    refine .cons ⟨"MATCH ", by decide, ?_⟩ (.cons ⟨"WHERE ", by decide, ?_⟩ .nil) <;>
    · simp only [String.append_assoc]
      exact Text.opensWith_append (by decide) _
  | contains label property needle =>
    refine .cons ⟨"WHERE ", by decide, ?_⟩ .nil
    simp only [String.append_assoc]
    exact Text.opensWith_append (by decide) _
  | traversal step =>
    refine .cons ?_ .nil
    unfold Traversal.line
    cases step.mode with
    | required => exact ⟨"MATCH ", by decide, Text.opensWith_append (by decide) _⟩
    | optional => exact ⟨"OPTIONAL MATCH ", by decide, Text.opensWith_append (by decide) _⟩
    | made =>
      refine ⟨"CALL ", by decide, ?_⟩
      simp only [String.append_assoc]
      exact Text.opensWith_append (by decide) _

theorem oneLine_lines {c : Clause} (h : ∀ t ∈ c.texts, Text.OneLine t) :
    ∀ line ∈ c.lines, Text.OneLine line := by
  cases c with
  | node label mode properties =>
    cases mode with
    | required =>
      exact List.forall_mem_singleton.mpr (Text.OneLine.append (by decide) label.oneLine_pattern)
    | optional =>
      exact List.forall_mem_singleton.mpr (Text.OneLine.append (by decide) label.oneLine_pattern)
    | made =>
      have hcall : Text.OneLine "CALL apoc.create.vNode(['" := by decide
      exact List.forall_mem_singleton.mpr (((((hcall.append label.oneLine.2).append
        (by decide)).append (oneLine_renderProperties h)).append (by decide)).append
          label.oneLine.1)
  | lookup label key value =>
    have hkey := h key (by simp [texts])
    have hvalue := Literal.oneLine_render (h value.content (by simp [texts]))
    have hmatch : Text.OneLine "MATCH (" := by decide
    have hwhere : Text.OneLine "WHERE " := by decide
    rw [lines, List.forall_mem_cons, List.forall_mem_singleton]
    exact ⟨(((hmatch.append label.oneLine.1).append (by decide)).append label.oneLine.2).append
        (by decide),
      ((((hwhere.append label.oneLine.1).append (by decide)).append hkey).append
        (by decide)).append hvalue⟩
  | contains label property needle =>
    have hproperty := h property (by simp [texts])
    have hneedle := Literal.oneLine_render (h needle.content (by simp [texts]))
    have hwhere : Text.OneLine "WHERE " := by decide
    exact List.forall_mem_singleton.mpr (((((hwhere.append label.oneLine.1).append
      (by decide)).append hproperty).append (by decide)).append hneedle)
  | traversal step =>
    exact List.forall_mem_singleton.mpr
      (Traversal.oneLine_line (h step.var (by simp [texts])) (h step.name (by simp [texts])))

theorem opens_line (c : Clause) {line : String} (hline : line ∈ c.lines) :
    ∃ word ∈ clauseWords, Text.opensWith word line = true := by
  have hwords : ∀ words ∈ c.openings, words ⊆ clauseWords := by
    cases c <;> simp [openings, clauseWords]
  obtain ⟨words, hmem, word, hword, hopens⟩ := exists_of_forall₂ c.opens_lines line hline
  exact ⟨word, hwords words hmem hword, hopens⟩

end Clause

/-! ## The lines of the later stages -/

namespace Plan

variable (p : Plan)

theorem lines_eq :
    p.lines = p.body.clauses.flatMap Clause.lines ++ p.stages.flatMap stageLines := by
  obtain ⟨body, aggregation, projection, orderBy, limit⟩ := p
  unfold lines stages stageLines sortLine? limitLine?
  cases projection <;> cases aggregation <;>
    simp [Aggregation.line, Projection.line, Function.comp_def, String.append_assoc]

end Plan

namespace Text

/-- Neither of the two words begins with the other, so no line begins with both. -/
def Apart (v w : String) : Prop := opensWith v w = false ∧ opensWith w v = false

theorem Apart.symm {v w : String} (h : Apart v w) : Apart w v := ⟨h.2, h.1⟩

instance (v w : String) : Decidable (Apart v w) := inferInstanceAs (Decidable (_ ∧ _))

theorem Apart.opensWith_eq_false {v w line : String} (h : Apart v w)
    (hv : opensWith v line = true) : opensWith w line = false := by
  by_contra hw
  rcases opensWith_either hv (Bool.not_eq_false _ ▸ hw) with hvw | hwv
  · exact Bool.false_ne_true (h.1.symm.trans hvw)
  · exact Bool.false_ne_true (h.2.symm.trans hwv)

end Text

theorem opensWith_of_mem_stageLines {stage : String × Option String} {line : String}
    (h : line ∈ stageLines stage) : Text.opensWith stage.1 line = true := by
  obtain ⟨rest, _, rfl⟩ := Option.map_eq_some_iff.mp (Option.mem_toList.mp h)
  exact Text.opensWith_append (by simp [Text.opensWith]) rest

/-- The lines that begin with the word of a stage are the line of that stage. -/
theorem filter_stageLines {stages : List (String × Option String)}
    (h : (stages.map Prod.fst).Pairwise Text.Apart) {stage : String × Option String}
    (hs : stage ∈ stages) :
    (stages.flatMap stageLines).filter (Text.opensWith stage.1) = stageLines stage := by
  have hother : ∀ other : String × Option String, Text.Apart other.1 stage.1 →
      (stageLines other).filter (Text.opensWith stage.1) = [] := by
    intro other hapart
    rw [List.filter_eq_nil_iff]
    intro line hline
    simp [hapart.opensWith_eq_false (opensWith_of_mem_stageLines hline)]
  induction stages with
  | nil => cases hs
  | cons first rest ih =>
    rw [List.map_cons, List.pairwise_cons] at h
    rw [List.flatMap_cons, List.filter_append]
    rcases List.mem_cons.mp hs with rfl | hs
    · have hfirst : (stageLines stage).filter (Text.opensWith stage.1) = stageLines stage :=
        List.filter_eq_self.mpr fun _ => opensWith_of_mem_stageLines
      have hrest : (rest.flatMap stageLines).filter (Text.opensWith stage.1) = [] := by
        rw [List.filter_flatMap, List.flatMap_eq_nil_iff]
        intro other hmem
        exact hother other (h.1 other.1 (List.mem_map_of_mem hmem)).symm
      rw [hfirst, hrest, List.append_nil]
    · rw [hother first (h.1 stage.1 (List.mem_map_of_mem hs)), ih h.2 hs, List.nil_append]

namespace Plan

variable {p : Plan}

theorem words_stages (p : Plan) :
    p.stages.map Prod.fst = ["WITH *, ", "RETURN ", "ORDER BY ", "LIMIT "] := rfl

theorem words_apart (p : Plan) : (p.stages.map Prod.fst).Pairwise Text.Apart := by
  rw [words_stages]
  decide

/-- No line of a clause begins with the word of a stage. -/
theorem opensWith_clause_line {stage : String × Option String} (hs : stage ∈ p.stages) {c : Clause}
    {line : String} (hline : line ∈ c.lines) : Text.opensWith stage.1 line = false := by
  have hwords : ∀ word ∈ clauseWords, ∀ stage ∈ p.stages.map Prod.fst, Text.Apart word stage := by
    rw [words_stages]
    decide
  obtain ⟨word, hword, hopens⟩ := c.opens_line hline
  exact (hwords word hword _ (List.mem_map_of_mem hs)).opensWith_eq_false hopens

theorem oneLine_stages (h : ∀ t ∈ p.texts, Text.OneLine t) :
    ∀ stage ∈ p.stages, ∀ rest, stage.2 = some rest → Text.OneLine rest := by
  unfold texts at h
  simp only [List.forall_mem_append] at h
  obtain ⟨⟨⟨_, haggregation⟩, hprojection⟩, hsort⟩ := h
  simp only [stages, List.forall_mem_cons]
  refine ⟨?aggregation, ?projection, ?sort, ?limit, List.forall_mem_nil _⟩
  case aggregation =>
    intro rest hrest
    obtain ⟨a, ha, rfl⟩ := Option.map_eq_some_iff.mp hrest
    have hparts : ∀ t ∈ a.texts, Text.OneLine t := fun t ht =>
      haggregation t (List.mem_flatMap.mpr ⟨a, Option.mem_toList.mpr ha, ht⟩)
    simp only [Aggregation.texts, List.forall_mem_cons] at hparts
    obtain ⟨hfunction, hargument, hname, _⟩ := hparts
    exact (((hfunction.append (by decide)).append hargument).append (by decide)).append hname
  case projection =>
    intro rest hrest
    obtain rfl := Option.some.inj hrest
    cases hp : p.projection with
    | all => exact (by decide : Text.OneLine "*")
    | vars names =>
      rw [hp] at hprojection
      exact Text.OneLine.intercalate (by decide) hprojection
  case sort =>
    intro rest hrest
    exact hsort rest (Option.mem_toList.mpr (Option.eq_some_of_filter_eq_some hrest))
  case limit =>
    intro rest hrest
    obtain ⟨n, _, rfl⟩ := Option.map_eq_some_iff.mp hrest
    exact (Text.closed_repr _).1

theorem oneLine_lines (h : ∀ t ∈ p.texts, Text.OneLine t) :
    ∀ line ∈ p.lines, Text.OneLine line := by
  rw [lines_eq, List.forall_mem_append]
  constructor
  · intro line hline
    obtain ⟨c, hc, hline⟩ := List.mem_flatMap.mp hline
    refine Clause.oneLine_lines (fun t ht => h t ?_) line hline
    unfold texts
    simp only [List.mem_append, List.mem_flatMap]
    exact Or.inl (Or.inl (Or.inl ⟨c, hc, ht⟩))
  · intro line hline
    obtain ⟨stage, hstage, hline⟩ := List.mem_flatMap.mp hline
    obtain ⟨rest, hrest, rfl⟩ := Option.map_eq_some_iff.mp (Option.mem_toList.mp hline)
    have hwords : ∀ word ∈ p.stages.map Prod.fst, Text.OneLine word := by
      rw [words_stages]
      decide
    exact (hwords _ (List.mem_map_of_mem hstage)).append (oneLine_stages h stage hstage rest hrest)

theorem ne_empty_of_mem_lines {line : String} (h : line ∈ p.lines) : line ≠ "" := by
  have hclauses : ∀ word ∈ clauseWords, word ≠ "" := by decide
  have hstages : ∀ word ∈ p.stages.map Prod.fst, word ≠ "" := by
    rw [words_stages]
    decide
  rw [lines_eq, List.mem_append] at h
  rcases h with h | h
  · obtain ⟨c, _, hline⟩ := List.mem_flatMap.mp h
    obtain ⟨word, hword, hopens⟩ := c.opens_line hline
    exact Text.ne_empty_of_opensWith (hclauses word hword) hopens
  · obtain ⟨stage, hstage, hline⟩ := List.mem_flatMap.mp h
    exact Text.ne_empty_of_opensWith (hstages _ (List.mem_map_of_mem hstage))
      (opensWith_of_mem_stageLines hline)

/-- A stage has its line among the lines of the plan, and no other line looks like it. -/
theorem filter_lines {stage : String × Option String} (hs : stage ∈ p.stages) :
    p.lines.filter (Text.opensWith stage.1) = stageLines stage := by
  have hclauses : (p.body.clauses.flatMap Clause.lines).filter (Text.opensWith stage.1) = [] := by
    rw [List.filter_eq_nil_iff]
    intro line hline
    obtain ⟨c, _, hline⟩ := List.mem_flatMap.mp hline
    simp [opensWith_clause_line hs hline]
  rw [lines_eq, List.filter_append, hclauses, List.nil_append, filter_stageLines p.words_apart hs]

/-- A list of variables that is written as a star is the star alone. -/
theorem intercalate_eq_star {names : List String} (h : ", ".intercalate names = "*") :
    names = ["*"] := by
  cases names with
  | nil => exact absurd h (by decide)
  | cons first rest =>
    cases rest with
    | nil => rw [← h, String.intercalate_singleton]
    | cons second rest =>
      have hsep : ", ".length = 2 := by decide
      have hstar : "*".length = 1 := by decide
      have hlength := congrArg String.length h
      rw [String.intercalate_cons_cons, String.length_append, String.length_append] at hlength
      omega

/-- There is one line that returns. -/
theorem filter_returns : p.lines.filter (Text.opensWith "RETURN ") = [p.projection.line] := by
  have hstage : ("RETURN ", some p.projection.returned) ∈ p.stages :=
    List.mem_cons_of_mem _ List.mem_cons_self
  exact filter_lines hstage

theorem returns_star_iff :
    "RETURN *" ∈ p.lines ↔ p.projection = .all ∨ p.projection = .vars ["*"] := by
  have hmem : "RETURN *" ∈ p.lines ↔ "RETURN *" ∈ p.lines.filter (Text.opensWith "RETURN ") := by
    rw [List.mem_filter]
    exact (and_iff_left (by decide)).symm
  have hline : ("RETURN " ++ "*" : String) = "RETURN *" := by decide
  rw [hmem, filter_returns, List.mem_singleton]
  cases p.projection with
  | all => simp
  | vars names =>
    simp only [reduceCtorEq, false_or, Projection.vars.injEq]
    rw [← hline, Projection.line_vars, String.append_right_inj]
    refine ⟨fun h => intercalate_eq_star h.symm, ?_⟩
    rintro rfl
    rfl

end Plan

/-! ## The law -/

/-- Split at its line feeds, the text of a plan has the lines of each clause in order, two for a
lookup and one for any other clause, and then a line for each later stage that the plan has:
aggregation, projection, a sort expression that is not empty, and limit. No other line begins
like that of a stage, and no line is empty. The text ends in a line feed, with nothing behind
it. The one line that returns has a star for all that is bound and otherwise the variables in
their order, which spell a star only where a single variable is called so. -/
theorem a_plan_is_written_stage_by_stage {p : Plan} {steps : List Clause}
    (hbody : p.body = .ofList steps) (htexts : ∀ t ∈ p.texts, Text.OneLine t) :
    ∃ lines, Text.pieces p.render.cypher = lines ++ [""]
      ∧ p.render.cypher.toList.getLast? = some '\n'
      ∧ lines = steps.flatMap Clause.lines ++ p.stages.flatMap stageLines
      ∧ (∀ c ∈ steps, List.Forall₂
          (fun words line => ∃ word ∈ words, Text.opensWith word line = true) c.openings c.lines)
      ∧ (∀ stage ∈ p.stages, lines.filter (Text.opensWith stage.1) = stageLines stage)
      ∧ (∀ line ∈ lines, line ≠ "")
      ∧ (p.projection = .all → lines.filter (Text.opensWith "RETURN ") = ["RETURN *"])
      ∧ (∀ names, p.projection = .vars names →
          lines.filter (Text.opensWith "RETURN ") = ["RETURN " ++ ", ".intercalate names])
      ∧ ("RETURN *" ∈ lines ↔ p.projection = .all ∨ p.projection = .vars ["*"]) := by
  have hclauses : p.body.clauses = steps := by rw [hbody, Body.clauses_ofList]
  refine ⟨p.lines, Text.pieces_ofLines (Plan.oneLine_lines htexts), ?_, ?_,
    fun c _ => c.opens_lines, fun stage => Plan.filter_lines,
    fun line => Plan.ne_empty_of_mem_lines, fun h => ?_, fun names h => ?_,
    Plan.returns_star_iff⟩
  · apply Text.getLast?_ofLines
    simp [Plan.lines]
  · rw [Plan.lines_eq, hclauses]
  · rw [Plan.filter_returns, h, Projection.line_all]
  · rw [Plan.filter_returns, h, Projection.line_vars]

/-- An order is looked up by a key with a quote in it, counted and sorted, and all is returned. -/
theorem a_lookup_is_written_on_two_lines :
    ∃ (p : Plan) (steps : List Clause), p.body = .ofList steps
      ∧ (∀ t ∈ p.texts, Text.OneLine t)
      ∧ Text.pieces p.render.cypher = p.lines ++ [""] ∧ "RETURN *" ∈ p.lines
      ∧ p.lines.length = 6 := by
  let steps : List Clause :=
    [ .lookup .order "rs_id" (.text "o'1"),
      .traversal ⟨"r2", "CONTAINS", .order, .product, .optional⟩ ]
  let p : Plan :=
    { body := .ofList steps
      aggregation := some ⟨"COUNT", "order", "order_count"⟩
      projection := .all
      orderBy := some "order_count DESC"
      limit := none }
  have htexts : ∀ t ∈ p.texts, Text.OneLine t := by decide
  obtain ⟨lines, hpieces, _, hlines, _, _, _, _, _, hstar⟩ :=
    @a_plan_is_written_stage_by_stage p steps rfl htexts
  obtain rfl : lines = p.lines := hlines.trans p.lines_eq.symm
  exact ⟨p, steps, rfl, htexts, hpieces, hstar.mpr (Or.inl rfl), by decide⟩

/-- A single variable that is called like the star is returned as the star is. -/
theorem a_variable_may_be_called_like_the_star :
    ∃ (p : Plan) (steps : List Clause), p.body = .ofList steps
      ∧ (∀ t ∈ p.texts, Text.OneLine t) ∧ p.projection = .vars ["*"]
      ∧ Text.pieces p.render.cypher = ["RETURN *", ""]
      ∧ ¬ ("RETURN *" ∈ Text.pieces p.render.cypher ↔ p.projection = .all) := by
  have hpieces : Text.pieces (Plan.render { projection := .vars ["*"] }).cypher
      = ["RETURN *", ""] := by decide
  refine ⟨{ projection := .vars ["*"] }, [], rfl, by decide, rfl, hpieces, ?_⟩
  rw [hpieces]
  decide

end ShopQuery
