-- The clauses of a search, the variables that they bind and the lines of its plan: over any
-- schema, and over the retail schema for a search that comes from a request.
import ShopQuery.Proofs.RequestMeaning
import ShopQuery.Query.Cypher
import ShopQuery.Search.Plan

namespace ShopQuery

/-! ## Any schema -/

/-- The label that a relationship with this trigger brings in. -/
def Trigger.label : Trigger → Label
  | one label => label
  | under _ child => child

/-- The line that makes a node for the words. -/
def wordsLine (k : String) : String :=
  "CALL apoc.create.vNode(['Keyword'], \x7bkeyword: '" ++ k ++ "'\x7d) YIELD node AS keyword"

/-- The line that asks for the words in the name of a product. -/
def nameLine (k : String) : String := "WHERE product.product_name CONTAINS '" ++ k ++ "'"

namespace Search

variable (s : Search) (schema : Schema)

theorem clauses_body : (s.body schema).clauses = rootClauses s.keyword
    ++ (schema.triggered s.asked).map fun r => .traversal (r.traversal .optional) :=
  Body.clauses_ofList _

theorem vars_body : (s.body schema).vars = (schema.triggered s.asked).map (·.var) := by
  have hroot : (rootClauses s.keyword).flatMap Clause.vars = [] := by
    rcases s.keyword with _ | keyword <;> rfl
  unfold body
  rw [Body.vars_ofList, List.flatMap_append, List.flatMap_map, hroot, List.nil_append,
    List.map_eq_flatMap]
  rfl

theorem mem_labels_rootClauses (keyword : Option String) (l : Label) :
    l ∈ (rootClauses keyword).flatMap Clause.labels ↔
      l = .product ∨ (l = .keyword ∧ keyword.isSome) := by
  rcases keyword with _ | keyword
  · simp [rootClauses, Clause.labels]
  · simp [rootClauses, Clause.labels, or_comm]

/-- A search binds the products, its keyword, and both ends of each relationship that it
follows. -/
theorem binds_body (l : Label) : (s.body schema).binds l = true ↔
    l = .product ∨ (l = .keyword ∧ s.keyword.isSome) ∨
      ∃ r ∈ schema.triggered s.asked, l = r.source ∨ l = r.target := by
  unfold body
  rw [Body.binds_ofList, List.contains_iff_mem, List.flatMap_append, List.flatMap_map,
    List.mem_append, mem_labels_rootClauses, List.mem_flatMap, or_assoc]
  simp [Clause.labels, Relationship.traversal]

theorem lines_rootClauses (keyword : Option String) :
    (rootClauses keyword).flatMap Clause.lines = (keyword.map wordsLine).toList
      ++ ["MATCH (product: Product)"] ++ (keyword.map nameLine).toList := by
  rcases keyword with _ | k
  · rfl
  · simp only [rootClauses, List.flatMap_cons, List.flatMap_nil, Clause.lines,
      Option.map_some, Option.toList_some, List.cons_append, List.nil_append, List.cons.injEq,
      and_true]
    refine ⟨?_, rfl, ?_⟩
    · unfold wordsLine
      apply String.toList_injective
      simp [keywordProperty, renderProperties, Literal.render, Label.name, Label.var]
    · unfold nameLine
      apply String.toList_injective
      simp [searchedProperty, Literal.render, Label.var]

theorem lines_body : (s.body schema).clauses.flatMap Clause.lines =
    (rootClauses s.keyword).flatMap Clause.lines
      ++ (schema.triggered s.asked).map fun r => (r.traversal .optional).line := by
  rw [clauses_body, List.flatMap_append, List.flatMap_map, List.map_eq_flatMap]
  rfl

theorem lines_plan : (s.plan schema).lines =
    (rootClauses s.keyword).flatMap Clause.lines
      ++ (schema.triggered s.asked).map (fun r => (r.traversal .optional).line)
      ++ (((s.body schema).orderCounting s).map Aggregation.line).toList
      ++ ["RETURN " ++ ", ".intercalate (s.body schema).returnedVars]
      ++ ((s.orderBy.filter fun e => !e.isEmpty).map ("ORDER BY " ++ ·)).toList
      ++ ["LIMIT " ++ toString s.limit.toNat] := by
  unfold plan Plan.lines Plan.sortLine? Plan.limitLine? Body.returned
  simp only [lines_body, Option.map_some, UInt32.toNat_toUInt64]
  rfl

theorem body_eq_of_same {s t : Search} {schema : Schema} (hk : s.keyword = t.keyword)
    (hr : schema.triggered s.asked = schema.triggered t.asked) : s.body schema = t.body schema := by
  unfold body
  rw [hk, hr]

/-- The clauses, the sorting and the size are all that makes the plan of a search. -/
theorem plan_eq_of_same {s t : Search} {schema : Schema} (hk : s.keyword = t.keyword)
    (hr : schema.triggered s.asked = schema.triggered t.asked) (ho : s.orderBy = t.orderBy)
    (hl : s.limit = t.limit) : s.plan schema = t.plan schema := by
  unfold plan Body.returned Body.orderCounting sortsByCount
  rw [body_eq_of_same hk hr, ho, hl]

end Search

/-! ## The retail schema -/

namespace Request

variable (r : Request)

theorem fires_asked {rel : Relationship} (h : rel ∈ Schema.retailRelationships) :
    rel.trigger.fires r.asked = r.joins rel.trigger.label := by
  simp only [Schema.retailRelationships, List.mem_cons, List.not_mem_nil, or_false] at h
  rcases h with rfl | rfl | rfl | rfl | rfl | rfl | rfl
  all_goals simp only [Trigger.fires, contains_asked]; rfl

theorem triggered_asked : Schema.retail.triggered r.asked =
    Schema.retailRelationships.filter fun rel => r.joins rel.trigger.label :=
  List.filter_congr fun _ h => r.fires_asked h

/-- A request binds the products and the labels that it brings in. -/
theorem binds_explore (p : Paging) (l : Label) :
    ((r.toSearch p).body Schema.retail).binds l = (decide (l = .product) || r.joins l) := by
  rw [Bool.eq_iff_iff, Search.binds_body]
  rw [keyword_toSearch, asked_toSearch, triggered_asked]
  simp only [List.mem_filter, and_assoc, Schema.retailRelationships, List.mem_cons,
    List.not_mem_nil, or_false, exists_eq_or_imp, exists_eq_left, Trigger.label]
  cases l
  case order =>
    -- Orders are an end of each relationship below them, and come in with it anyway.
    have hbelow : r.joins .cancel = true ∨ r.joins .returned = true ∨ r.joins .shipment = true →
        r.has .order = true := by
      simp only [joins, Bool.and_eq_true]
      rintro (h | h | h) <;> exact h.1
    simpa [joins] using hbelow
  all_goals simp [joins]

end Request

end ShopQuery
