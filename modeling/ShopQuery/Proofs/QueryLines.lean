-- The text of a search over the retail schema, said line by line from the request as it was
-- written. The planner reads a table of relationships; here each line has its own condition,
-- and the two agree for every request.
import ShopQuery.Proofs.SearchBody

namespace ShopQuery

/-! ## The lines of a request -/

/-- Members that are there under a condition. -/
def onlyIf {α : Type} (b : Bool) (xs : List α) : List α := if b then xs else []

/-- The line that joins the node of the words to a product. -/
def linkLine : String :=
  "CALL apoc.create.vRelationship(keyword, 'IS_IN', \x7b\x7d, product) YIELD rel AS r0"

namespace Request

/-- The relationships of the query that are matched, each on a line of its own. -/
def matchLines (r : Request) : List String :=
  onlyIf (r.has .supplier)
      ["OPTIONAL MATCH (product: Product)-[r1:IS_SUPPLIED_BY]->(supplier: Supplier)"]
    ++ onlyIf (r.has .order)
      (["OPTIONAL MATCH (order: Order)-[r2:CONTAINS]->(product: Product)"]
        ++ onlyIf (r.has .cancel)
          ["OPTIONAL MATCH (order: Order)-[r3:IS_CANCELED_BY]->(cancel: Cancel)"]
        ++ onlyIf (r.has .returned)
          ["OPTIONAL MATCH (order: Order)-[r4:IS_RETURNED_BY]->(return: Return)"]
        ++ onlyIf (r.has .shipment)
          ["OPTIONAL MATCH (order: Order)-[r5:IS_SHIPPED_BY]->(shipment: Shipment)"])
    ++ onlyIf (r.has .storage)
      ["OPTIONAL MATCH (storage: Storage)-[r6:STORES]->(product: Product)"]

/-- The variables that the query returns: nodes first, then relationships. -/
def returns (r : Request) : List String :=
  ["product"]
    ++ onlyIf (r.has .order) ["order"]
    ++ onlyIf (r.has .supplier) ["supplier"]
    ++ onlyIf (r.has .order)
      (onlyIf (r.has .cancel) ["cancel"]
        ++ onlyIf (r.has .returned) ["return"]
        ++ onlyIf (r.has .shipment) ["shipment"])
    ++ onlyIf (r.has .storage) ["storage"]
    ++ onlyIf r.words.isSome ["keyword"]
    ++ onlyIf r.words.isSome ["r0"]
    ++ onlyIf (r.has .supplier) ["r1"]
    ++ onlyIf (r.has .order)
      (["r2"]
        ++ onlyIf (r.has .cancel) ["r3"]
        ++ onlyIf (r.has .returned) ["r4"]
        ++ onlyIf (r.has .shipment) ["r5"])
    ++ onlyIf (r.has .storage) ["r6"]

/-- Orders are counted where there are words and orders, and the sort expression begins with
the number of orders. -/
def counts (r : Request) : Bool :=
  r.words.isSome && r.has .order
    && r.sorting.any fun e => "order_count".toList.isPrefixOf e.toList

/-- The lines that do not show the words. -/
def wordlessLines (r : Request) (p : Paging) : List String :=
  r.matchLines
    ++ onlyIf r.counts ["WITH *, COUNT(order) as order_count"]
    ++ ["RETURN " ++ ", ".intercalate r.returns]
    ++ (r.sorting.map fun e => "ORDER BY " ++ e).toList
    ++ ["LIMIT " ++ toString (r.size p)]

/-- The lines of the query. -/
def queryLines (r : Request) (p : Paging) : List String :=
  (r.words.map wordsLine).toList
    ++ ["MATCH (product: Product)"]
    ++ (r.words.map nameLine).toList
    ++ onlyIf r.words.isSome [linkLine]
    ++ r.wordlessLines p

end Request

/-! ## Conditions on lists -/

theorem filter_cons_eq {α : Type} (p : α → Bool) (x : α) (xs : List α) :
    (x :: xs).filter p = onlyIf (p x) [x] ++ xs.filter p := by
  unfold onlyIf
  rw [List.filter_cons]
  split <;> rfl

theorem map_onlyIf {α β : Type} (f : α → β) (b : Bool) (xs : List α) :
    (onlyIf b xs).map f = onlyIf b (xs.map f) := by
  cases b <;> rfl

theorem onlyIf_append {α : Type} (b : Bool) (xs ys : List α) :
    onlyIf b (xs ++ ys) = onlyIf b xs ++ onlyIf b ys := by
  cases b <;> rfl

theorem onlyIf_and {α : Type} (a b : Bool) (xs : List α) :
    onlyIf (a && b) xs = onlyIf a (onlyIf b xs) := by
  cases a <;> rfl

theorem Text.ofLines_eq_join (lines : List String) :
    ofLines lines = String.join (lines.map (· ++ "\n")) := by
  induction lines with
  | nil => rfl
  | cons line rest ih => rw [ofLines, ih, List.map_cons, String.join_cons]

/-! ## The plan has these lines -/

namespace Request

variable (r : Request) (p : Paging)

/-- The relationships that are followed, told apart by the labels that they bring in. -/
theorem map_triggered {β : Type} (f : Relationship → β) :
    (Schema.retail.triggered r.asked).map f =
      onlyIf r.words.isSome [f ⟨"IS_IN", "r0", .keyword, .product, .one .keyword, true⟩]
        ++ onlyIf (r.has .supplier)
          [f ⟨"IS_SUPPLIED_BY", "r1", .product, .supplier, .one .supplier, false⟩]
        ++ onlyIf (r.has .order)
          ([f ⟨"CONTAINS", "r2", .order, .product, .one .order, false⟩]
            ++ onlyIf (r.has .cancel)
              [f ⟨"IS_CANCELED_BY", "r3", .order, .cancel, .under .order .cancel, false⟩]
            ++ onlyIf (r.has .returned)
              [f ⟨"IS_RETURNED_BY", "r4", .order, .returned, .under .order .returned, false⟩]
            ++ onlyIf (r.has .shipment)
              [f ⟨"IS_SHIPPED_BY", "r5", .order, .shipment, .under .order .shipment, false⟩])
        ++ onlyIf (r.has .storage)
          [f ⟨"STORES", "r6", .storage, .product, .one .storage, false⟩] := by
  rw [triggered_asked]
  simp only [Schema.retailRelationships, filter_cons_eq, List.filter_nil, List.map_append,
    map_onlyIf, List.map_cons, List.map_nil, Trigger.label, joins, onlyIf_and, onlyIf_append,
    List.append_assoc, List.append_nil]

/-- The table lists the relationships by their variables, so sorting these changes nothing. -/
theorem sort_vars_triggered :
    ((Schema.retail.triggered r.asked).map (·.var)).mergeSort (fun x y => decide (x ≤ y))
      = (Schema.retail.triggered r.asked).map (·.var) := by
  have htable : (Schema.retailRelationships.map (·.var)).Pairwise
      fun x y => decide (x ≤ y) = true := by decide
  apply List.mergeSort_of_pairwise
  exact htable.sublist (List.filter_sublist.map _)

theorem returnedVars_body : ((r.toSearch p).body Schema.retail).returnedVars = r.returns := by
  have hbinds : ((r.toSearch p).body Schema.retail).binds =
      fun l => decide (l = .product) || r.joins l := funext (r.binds_explore p)
  unfold Body.returnedVars
  rw [Search.vars_body, asked_toSearch, sort_vars_triggered, map_triggered, hbinds, returns]
  simp only [Label.inReturnOrder, filter_cons_eq, List.filter_nil, List.map_append, map_onlyIf,
    List.map_cons, List.map_nil, joins, reduceCtorEq, decide_true, decide_false, Bool.true_or,
    Bool.false_or, onlyIf_and, onlyIf_append, List.append_assoc, List.append_nil]
  rfl

theorem orderCounting_body :
    ((r.toSearch p).body Schema.retail).orderCounting (r.toSearch p) =
      if r.counts then some ⟨"COUNT", "order", "order_count"⟩ else none := by
  unfold Body.orderCounting Search.sortsByCount counts
  rw [binds_explore, binds_explore, orderBy_toSearch, Bool.and_assoc, Bool.and_comm]
  rfl

/-- The plan of a request has the lines of the request. -/
theorem lines_explore : (Schema.retail.explore p r).lines = r.queryLines p := by
  have hcount : ((if r.counts then some ⟨"COUNT", "order", "order_count"⟩ else none :
      Option Aggregation).map Aggregation.line).toList
        = onlyIf r.counts ["WITH *, COUNT(order) as order_count"] := by
    cases r.counts <;> rfl
  have hsort : (r.sorting.filter fun e => !e.isEmpty) = r.sorting := by
    rcases h : r.sorting with _ | e
    · rfl
    · simp [sorting_ne_empty h]
  unfold Schema.explore queryLines wordlessLines matchLines
  rw [Search.lines_plan, keyword_toSearch, Search.lines_rootClauses, asked_toSearch,
    map_triggered, orderCounting_body, hcount, returnedVars_body, orderBy_toSearch, hsort,
    limit_toSearch]
  simp only [List.append_assoc]
  rfl

end Request

/-! ## The law -/

/-- The text of a query is what its request says, line by line. -/
theorem the_query_says_what_the_request_says (p : Paging) (r : Request) :
    (Schema.retail.explore p r).render.cypher = String.join ((r.queryLines p).map (· ++ "\n")) := by
  unfold Plan.render
  rw [Request.lines_explore, Text.ofLines_eq_join]

end ShopQuery
