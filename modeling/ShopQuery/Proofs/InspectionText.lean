-- The text of an inspection. The value of the key comes from outside and may stand bare in the
-- text; still it stays in its place, and a text names the label, the value and the limit that it
-- was made for.
import ShopQuery.Proofs.Neighbourhood
import ShopQuery.Proofs.TextIdentity

namespace ShopQuery

/-! ## What is wanted -/

/-- What an inspection comes to: a label, the value of its key and a limit. -/
structure Wanted where
  label : Label
  value : Literal
  limit : Option UInt64
  deriving DecidableEq, Repr

namespace Schema

variable (s : Schema)

/-- What is wanted with a label as it is spelled and with parameters, if there is such a label
and the parameters hold its key. -/
def wanted? (spelling : String) (params : Params) : Option Wanted :=
  (s.keyed? spelling).bind fun found => (params.get? found.2).map fun value =>
    { label := found.1
      value := .ofText value
      limit := (Inspection.ofParams spelling params).limit }

/-- The text in front of the value. -/
def textBefore (l : Label) : String :=
  "MATCH (" ++ l.var ++ ":" ++ l.name ++ ")" ++ "\n"
    ++ "WHERE " ++ l.var ++ "." ++ (s.key? l).getD "" ++ " = "

/-- The text behind the value. -/
def textAfter (l : Label) (limit : Option UInt64) : String :=
  "\n" ++ Text.ofLines ((s.neighbours l).map (fun r => (r.traversal .optional).line)
    ++ ["RETURN *"] ++ (limit.map fun n => "LIMIT " ++ toString n.toNat).toList)

end Schema

/-! ## Values in a text -/

namespace Literal

/-- A number is made of the characters of numbers, and a text holds no quotes and no
backslashes. -/
inductive Safe : Literal → Prop
  | number {digits : String} (nonempty : digits.toList ≠ [])
      (chars : digits.toList ⊆ Text.numberChars) : Safe (.number digits)
  | text {content : String} (harmless : Text.Harmless content) : Safe (.text content)

/-- What a text shows as a value is a number, or it stands between quotes and has neither
quotes nor backslashes inside. -/
def ShownSafely (shown : String) : Prop :=
  (shown ≠ "" ∧ ∀ c ∈ shown.toList, c ∈ Text.numberChars)
    ∨ ∃ content : String, shown = "'" ++ content ++ "'"
      ∧ ∀ c ∈ content.toList, c ≠ '\x27' ∧ c ≠ '\x22' ∧ c ≠ '\x5c'

theorem safe_ofText (s : String) : (ofText s).Safe := by
  by_cases h : Text.isFiniteNumber (Text.trim s) = true
  · rw [ofText, if_pos h]
    exact .number (Text.isFiniteNumber_numberChars h).1 (Text.isFiniteNumber_numberChars h).2
  · rw [ofText, if_neg h]
    exact .text (Text.harmless_quotable s)

theorem shownSafely_render {v : Literal} (h : v.Safe) : ShownSafely v.render := by
  cases h with
  | number nonempty chars =>
    refine Or.inl ⟨?_, fun c hc => chars hc⟩
    rintro rfl
    exact nonempty rfl
  | @text content harmless =>
    refine Or.inr ⟨content, rfl, fun c hc => ?_⟩
    exact (Text.isQuotable_iff c).mp (Text.harmless_iff.mp harmless c hc)

theorem toList_render_text (content : String) (x : List Char) :
    (text content).render.toList ++ x = '\x27' :: (content.toList ++ '\x27' :: x) := by
  have hquote : "'".toList = ['\x27'] := rfl
  unfold render
  rw [String.toList_append, String.toList_append, hquote]
  simp

/-- No character of a number is a quote. -/
theorem number_begins_differently {digits : List Char} (hne : digits ≠ [])
    (hchars : digits ⊆ Text.numberChars) (x y : List Char) : digits ++ x ≠ '\x27' :: y := by
  obtain ⟨c, cs, rfl⟩ := List.exists_cons_of_ne_nil hne
  intro h
  obtain ⟨rfl, _⟩ := List.cons.inj h
  exact absurd (hchars List.mem_cons_self) (by decide)

theorem feed_not_mem_number {digits : List Char} (hchars : digits ⊆ Text.numberChars) :
    '\n' ∉ digits := fun hmem => absurd (hchars hmem) (by decide)

/-- A bare value ends before the line does, and a quoted one at its second quote. -/
theorem cancel_render {v w : Literal} (hv : v.Safe) (hw : w.Safe) {x y : List Char}
    (h : v.render.toList ++ '\n' :: x = w.render.toList ++ '\n' :: y) : v = w ∧ x = y := by
  -- A text may hold line feeds, so only a number is cut at the first one.
  cases hv with
  | number hne hchars =>
    cases hw with
    | number _ hothers =>
      obtain ⟨hdigits, hrest⟩ :=
        Text.cancel_before (feed_not_mem_number hchars) (feed_not_mem_number hothers) h
      rw [String.toList_inj.mp hdigits]
      exact ⟨rfl, hrest⟩
    | text _ =>
      rw [toList_render_text] at h
      exact absurd h (number_begins_differently hne hchars _ _)
  | text hcontent =>
    rw [toList_render_text] at h
    cases hw with
    | number hne hchars => exact absurd h.symm (number_begins_differently hne hchars _ _)
    | text hother =>
      rw [toList_render_text] at h
      obtain ⟨hsame, hrest⟩ := Text.cancel_before (Text.quote_not_mem hcontent)
        (Text.quote_not_mem hother) (List.cons.inj h).2
      rw [String.toList_inj.mp hsame]
      exact ⟨rfl, (List.cons.inj hrest).2⟩

end Literal

/-! ## The parts of a text -/

namespace Schema

variable {s : Schema}

/-- The plan for what is wanted. -/
def planFor (s : Schema) (w : Wanted) : Plan :=
  { body := .ofList (.lookup w.label ((s.key? w.label).getD "") w.value
      :: (s.neighbours w.label).map fun r => .traversal (r.traversal .optional))
    limit := w.limit }

theorem key?_of_keyed? {spelling : String} {l : Label} {k : String}
    (h : s.keyed? spelling = some (l, k)) : s.key? l = some k := by
  unfold keyed? at h
  obtain ⟨m, _, hm⟩ := Option.bind_eq_some_iff.mp h
  obtain ⟨key, hkey, hpair⟩ := Option.map_eq_some_iff.mp hm
  cases hpair
  exact hkey

/-- An inspection that succeeds is planned for what is wanted. -/
theorem inspect_eq_ok {spelling : String} {params : Params} {plan : Plan}
    (h : s.inspect spelling params = .ok plan) :
    ∃ w, s.wanted? spelling params = some w ∧ plan = s.planFor w ∧ w.value.Safe := by
  obtain ⟨l, k, value, hfound, hvalue, rfl⟩ := found_of_inspect h
  have hwanted : s.wanted? spelling params
      = some ⟨l, .ofText value, (Inspection.ofParams spelling params).limit⟩ := by
    unfold wanted?
    rw [hfound, Option.bind_some, hvalue, Option.map_some]
  refine ⟨_, hwanted, ?_, Literal.safe_ofText value⟩
  unfold planFor Inspection.body
  rw [key?_of_keyed? hfound, Option.getD_some]

theorem lines_planFor (s : Schema) (w : Wanted) : (s.planFor w).lines =
    [ "MATCH (" ++ w.label.var ++ ":" ++ w.label.name ++ ")",
      "WHERE " ++ w.label.var ++ "." ++ (s.key? w.label).getD "" ++ " = " ++ w.value.render ]
    ++ ((s.neighbours w.label).map (fun r => (r.traversal .optional).line) ++ ["RETURN *"]
      ++ (w.limit.map fun n => "LIMIT " ++ toString n.toNat).toList) := by
  unfold planFor Plan.lines Plan.sortLine? Plan.limitLine?
  simp only [Body.clauses_ofList, List.flatMap_cons, List.flatMap_map, Option.map_none,
    Option.filter_none, Option.toList_none, List.append_nil, List.append_assoc, Clause.lines,
    Projection.line_all]
  rw [← List.map_eq_flatMap]

theorem text_planFor (s : Schema) (w : Wanted) : (s.planFor w).render.cypher =
    s.textBefore w.label ++ w.value.render ++ s.textAfter w.label w.limit := by
  unfold Plan.render textBefore textAfter
  rw [lines_planFor, Text.ofLines_append]
  simp only [Text.ofLines, String.append_assoc, String.empty_append]

/-! ## The parts can be told apart -/

/-- No two labels share a first line. -/
theorem cancel_label {l m : Label} {x y : String}
    (h : s.textBefore l ++ x = s.textBefore m ++ y) : l = m := by
  -- The key stands on the second line, so it may be any text.
  have hfeed : ∀ l : Label, '\n' ∉ ("MATCH (" ++ l.var ++ ":" ++ l.name ++ ")").toList := by
    intro l
    cases l <;> decide
  have hlines : ∀ l ∈ Label.all, ∀ m ∈ Label.all,
      ("MATCH (" ++ l.var ++ ":" ++ l.name ++ ")").toList
        = ("MATCH (" ++ m.var ++ ":" ++ m.name ++ ")").toList → l = m := by decide +kernel
  have hcut : ∀ (l : Label) (rest : String), (s.textBefore l ++ rest).toList =
      ("MATCH (" ++ l.var ++ ":" ++ l.name ++ ")").toList
        ++ '\n' :: ("WHERE " ++ l.var ++ "." ++ (s.key? l).getD "" ++ " = " ++ rest).toList := by
    intro l rest
    unfold textBefore
    simp
  rw [← String.toList_inj, hcut, hcut] at h
  exact hlines l (Label.mem_all l) m (Label.mem_all m)
    (Text.cancel_before (hfeed l) (hfeed m) h).1

/-- The limit as the last lines of a text show it. -/
theorem cancel_limit {l : Label} {m n : Option UInt64} (h : s.textAfter l m = s.textAfter l n) :
    m = n := by
  have hfirst : ∀ k : Nat, Text.ofLines [] ≠ Text.ofLines ["LIMIT " ++ toString k] := by
    intro k heq
    rw [← String.toList_inj, Text.ofLines, Text.ofLines] at heq
    simp at heq
  unfold textAfter at h
  rw [String.append_right_inj, Text.ofLines_append, Text.ofLines_append _ (n.map _).toList,
    String.append_right_inj] at h
  rcases m with _ | m <;> rcases n with _ | n
  · rfl
  · exact absurd h (hfirst _)
  · exact absurd h.symm (hfirst _)
  · have hdigits : m.toNat.repr.toList = n.toNat.repr.toList := by
      simpa [Text.ofLines, ← String.toList_inj] using h
    rw [UInt64.toNat_inj.mp (Text.digits_injective hdigits)]

theorem textAfter_eq (l : Label) (limit : Option UInt64) :
    ∃ rest, s.textAfter l limit = "\n" ++ rest := ⟨_, rfl⟩

/-- What is wanted can be read from the text alone. -/
theorem eq_of_text {w₁ w₂ : Wanted} (h₁ : w₁.value.Safe) (h₂ : w₂.value.Safe)
    (h : (s.planFor w₁).render = (s.planFor w₂).render) : w₁ = w₂ := by
  obtain ⟨l, v, m⟩ := w₁
  obtain ⟨l', v', n⟩ := w₂
  dsimp only at h₁ h₂
  have htext := congrArg Query.cypher h
  rw [text_planFor, text_planFor, String.append_assoc, String.append_assoc] at htext
  dsimp only at htext
  obtain rfl := cancel_label htext
  have hbehind := (String.append_right_inj _).mp htext
  obtain ⟨x, hx⟩ := textAfter_eq (s := s) l m
  obtain ⟨y, hy⟩ := textAfter_eq (s := s) l n
  have hvalue : v.render.toList ++ '\n' :: x.toList = v'.render.toList ++ '\n' :: y.toList := by
    rw [hx, hy, ← String.toList_inj] at hbehind
    simpa using hbehind
  obtain ⟨rfl, hrest⟩ := Literal.cancel_render h₁ h₂ hvalue
  obtain rfl := cancel_limit (hx.trans ((String.toList_inj.mp hrest) ▸ hy.symm))
  rfl

end Schema

/-! ## The law -/

/-- An inspection that succeeds has in its text one part for the label, then the value, then one
part for the label and the limit, and the value cannot leave its place: it is a number, or it
has neither quotes nor backslashes between its two quotes. So two inspections have one text if
and only if they want one value of the key of one label, with one limit. -/
theorem an_inspected_value_stays_in_its_place (s : Schema) :
    (∀ spelling params plan, s.inspect spelling params = .ok plan →
      ∃ w, s.wanted? spelling params = some w
        ∧ plan.body.clauses.head? = some (.lookup w.label ((s.key? w.label).getD "") w.value)
        ∧ plan.limit = w.limit
        ∧ plan.render.cypher
          = s.textBefore w.label ++ w.value.render ++ s.textAfter w.label w.limit
        ∧ (s.textAfter w.label w.limit).toList.head? = some '\n'
        ∧ Literal.ShownSafely w.value.render)
    ∧ ∀ spelling₁ params₁ plan₁ spelling₂ params₂ plan₂,
      s.inspect spelling₁ params₁ = .ok plan₁ → s.inspect spelling₂ params₂ = .ok plan₂ →
        (plan₁.render.cypher = plan₂.render.cypher ↔
          s.wanted? spelling₁ params₁ = s.wanted? spelling₂ params₂) := by
  constructor
  · intro spelling params plan h
    obtain ⟨w, hwanted, rfl, hsafe⟩ := Schema.inspect_eq_ok h
    refine ⟨w, hwanted, ?_, rfl, Schema.text_planFor s w, ?_, Literal.shownSafely_render hsafe⟩
    · unfold Schema.planFor
      rw [Body.clauses_ofList]
      rfl
    · obtain ⟨rest, hrest⟩ := Schema.textAfter_eq (s := s) w.label w.limit
      rw [hrest, String.toList_append]
      rfl
  · intro spelling₁ params₁ plan₁ spelling₂ params₂ plan₂ h₁ h₂
    obtain ⟨w₁, hwanted₁, rfl, hsafe₁⟩ := Schema.inspect_eq_ok h₁
    obtain ⟨w₂, hwanted₂, rfl, hsafe₂⟩ := Schema.inspect_eq_ok h₂
    rw [hwanted₁, hwanted₂, Option.some.injEq]
    constructor
    · intro htext
      exact Schema.eq_of_text hsafe₁ hsafe₂ (congrArg Query.mk htext)
    · rintro rfl
      rfl

/-- A number and the same number between quotes are two values of a key, and the texts differ. -/
theorem a_quoted_key_has_a_text_of_its_own :
    ∃ plan₁ plan₂, Schema.retail.inspect "Order" ⟨[("rs_id", "1e3")]⟩ = .ok plan₁
      ∧ Schema.retail.inspect "oRDER" ⟨[("rs_id", "'1e3'")]⟩ = .ok plan₂
      ∧ plan₁.render.cypher ≠ plan₂.render.cypher := by
  have hbare : Schema.retail.inspect "Order" ⟨[("rs_id", "1e3")]⟩ = _ :=
    Schema.inspect_of_some (by decide : Schema.retail.keyed? "Order" = some (.order, "rs_id"))
  have hquoted : Schema.retail.inspect "oRDER" ⟨[("rs_id", "'1e3'")]⟩ = _ :=
    Schema.inspect_of_some (by decide : Schema.retail.keyed? "oRDER" = some (.order, "rs_id"))
  refine ⟨_, _, hbare, hquoted, ?_⟩
  rw [Ne, (an_inspected_value_stays_in_its_place Schema.retail).2 _ _ _ _ _ _ hbare hquoted]
  decide +kernel

end ShopQuery
