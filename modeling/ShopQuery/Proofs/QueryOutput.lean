-- What is printed of a query says all of it. The JSON output is read back as the same query,
-- whatever characters its text has; and the plain output with the line feed that the program puts
-- behind it is the text itself, since a text ends in one line feed and no more.
import ShopQuery.Json.Decode
import ShopQuery.Program
import ShopQuery.Proofs.InspectionText
import ShopQuery.Proofs.JsonSpelling
import ShopQuery.Proofs.PlanLines

namespace ShopQuery

open Json (Spells Token)

/-! ## JSON output -/

/-- The tokens of a query that is printed as an object. -/
def Query.tokens (q : Query) : List Token :=
  [.openObject, .string (some "cypher"), .colon, .string (some q.cypher), .closeObject]

theorem Query.spells_print (q : Query) : Spells q.tokens (q.print .json).toList := by
  have hprint : (q.print .json).toList
      = ['\x7b'] ++ ('\n' :: ' ' :: ' ' :: ((Json.quote "cypher").toList
        ++ ([':'] ++ (' ' :: ((Json.quote q.cypher).toList ++ ('\n' :: (['\x7d'] ++ []))))))) := by
    simp [print, Json.printObject]
  rw [hprint]
  refine .cons .openObject (.space rfl (.space rfl (.space rfl ?_))) nofun
  refine .cons (Json.spelled_quote _) (.cons .colon (.space rfl ?_) nofun) nofun
  exact .cons (Json.spelled_quote _) (.space rfl (.cons .closeObject .nil nofun)) nofun

theorem Query.ofJsonText?_print (q : Query) : ofJsonText? (q.print .json) = some q := by
  unfold ofJsonText? Json.Value.read?
  rw [Json.tokens?_of_spells q.spells_print]
  rfl

/-! ## Plain output -/

namespace Text

/-- Behind the last line that is not empty there is one line feed to drop. -/
theorem dropFinalNewlines_ofLines {front : List String} {last : String} (h : OneLine last)
    (hne : last ≠ "") :
    dropFinalNewlines (ofLines (front ++ [last])) ++ "\n" = ofLines (front ++ [last]) := by
  have hlast : last.toList ≠ [] := fun hnil => hne (String.toList_inj.mp hnil)
  obtain ⟨cs, c, hcs⟩ := List.eq_nil_or_concat' last.toList |>.resolve_left hlast
  have hc : c ≠ '\n' := by
    rintro rfl
    exact h (by simp [hcs])
  have htext : (ofLines (front ++ [last])).toList
      = (ofLines front).toList ++ cs ++ [c] ++ ['\n'] := by
    rw [ofLines_append, String.toList_append, toList_ofLines_cons, hcs]
    simp
  have hdrop : dropTrailing (· == '\n') ((ofLines front).toList ++ cs ++ [c] ++ ['\n'])
      = (ofLines front).toList ++ cs ++ [c] := by
    simp [dropTrailing, hc]
  rw [← String.toList_inj, String.toList_append, dropFinalNewlines, String.toList_ofList, htext,
    hdrop]
  rfl

end Text

namespace Plan

/-- A plan with a limit, or one that returns all that is bound and does not sort. -/
def EndsPlainly (p : Plan) : Prop := p.limit.isSome = true ∨ p.projection = .all ∧ p.orderBy = none

/-- The last line of such a plan is not empty and has no line feed. -/
theorem EndsPlainly.last_line {p : Plan} (h : p.EndsPlainly) :
    ∃ front last, p.lines = front ++ [last] ∧ Text.OneLine last ∧ last ≠ "" := by
  obtain ⟨body, aggregation, projection, orderBy, limit⟩ := p
  cases limit with
  | some n =>
    have hline : Text.OneLine ("LIMIT " ++ toString n.toNat) :=
      Text.OneLine.append (by decide) (Text.closed_repr _).1
    have hopens : Text.opensWith "LIMIT " ("LIMIT " ++ toString n.toNat) = true :=
      Text.opensWith_append (by decide) _
    exact ⟨_, _, rfl, hline, Text.ne_empty_of_opensWith (by decide) hopens⟩
  | none =>
    obtain ⟨rfl, rfl⟩ := h.resolve_left Bool.false_ne_true
    refine ⟨body.clauses.flatMap Clause.lines ++ (aggregation.map Aggregation.line).toList,
      "RETURN *", ?_, by decide, by decide⟩
    simp [lines, sortLine?, limitLine?]

/-- The plain output of such a plan is its text, once the program has ended the last line. -/
theorem EndsPlainly.stdout_print {p : Plan} (h : p.EndsPlainly) :
    (Outcome.output (p.render.print .text)).exit.stdout = p.render.cypher := by
  obtain ⟨front, last, hlines, hone, hne⟩ := h.last_line
  have hcypher : p.render.cypher = Text.ofLines (front ++ [last]) := by
    rw [Plan.render, hlines]
  rw [hcypher, ← Text.dropFinalNewlines_ofLines hone hne, ← hcypher]
  rfl

end Plan

theorem Schema.endsPlainly_explore (s : Schema) (p : Paging) (r : Request) :
    (s.explore p r).EndsPlainly := Or.inl rfl

theorem Schema.endsPlainly_inspect {s : Schema} {spelling : String} {params : Params} {plan : Plan}
    (h : s.inspect spelling params = .ok plan) : plan.EndsPlainly := by
  obtain ⟨w, _, rfl, _⟩ := Schema.inspect_eq_ok h
  exact Or.inr ⟨rfl, rfl⟩

/-! ## The law -/

/-- Any query can be read back from its JSON output, so no two queries share one. What the
program prints of a search or an inspection in plain text, the line feed at its end included, is
the text of the query. -/
theorem output_says_the_whole_query :
    (∀ q : Query, Query.ofJsonText? (q.print .json) = some q)
    ∧ (∀ q r : Query, q.print .json = r.print .json ↔ q = r)
    ∧ (∀ (s : Schema) (p : Paging) (r : Request),
        (Outcome.output ((s.explore p r).render.print .text)).exit.stdout
          = (s.explore p r).render.cypher)
    ∧ ∀ (s : Schema) (spelling : String) (params : Params) (plan : Plan),
        s.inspect spelling params = .ok plan →
          (Outcome.output (plan.render.print .text)).exit.stdout = plan.render.cypher := by
  refine ⟨Query.ofJsonText?_print, fun q r => ⟨fun h => ?_, fun h => h ▸ rfl⟩,
    fun s p r => (s.endsPlainly_explore p r).stdout_print,
    fun s spelling params plan h => (Schema.endsPlainly_inspect h).stdout_print⟩
  have hread := q.ofJsonText?_print
  rw [h, r.ofJsonText?_print] at hread
  exact (Option.some.inj hread).symm

/-- The value of a key may end in line feeds; they stay, and the text ends in one of its own. -/
theorem a_key_with_line_feeds_is_printed :
    ∃ plan, Schema.retail.inspect "order" ⟨[("rs_id", "o1\n\n")]⟩ = .ok plan
      ∧ Literal.render (.ofText "o1\n\n") = "'o1\n\n'"
      ∧ (Outcome.output (plan.render.print .text)).exit.stdout = plan.render.cypher := by
  have hplan : Schema.retail.inspect "order" ⟨[("rs_id", "o1\n\n")]⟩ = _ :=
    Schema.inspect_of_some (by decide : Schema.retail.keyed? "order" = some (.order, "rs_id"))
  have hvalue : Literal.render (.ofText "o1\n\n") = "'o1\n\n'" := by decide +kernel
  exact ⟨_, hplan, hvalue, output_says_the_whole_query.2.2.2 _ _ _ _ hplan⟩

end ShopQuery
