-- The default order and the number of orders. A request that says nothing about its order is
-- sorted by the number of orders as soon as it has words and a filter on orders; whether the
-- orders come in, and can be counted, is up to the table of relationships.
import ShopQuery.Proofs.Growth

namespace ShopQuery

/-! ## Tables that bring orders in -/

theorem Trigger.fires_iff (t : Trigger) (asked : LabelSet) :
    t.fires asked = true ↔ ∀ l ∈ t.asks, asked.contains l = true := by
  cases t with
  | one label => simp [fires, asks]
  | under parent child => simp [fires, asks]

theorem Relationship.hasEnd_iff (r : Relationship) (l : Label) :
    r.hasEnd l = true ↔ l = r.source ∨ l = r.target := by
  unfold hasEnd
  rw [Bool.or_eq_true, beq_iff_eq, beq_iff_eq, eq_comm, @eq_comm _ r.target]

/-- Orders are an end of the relationship, and words and a filter on orders bring it in. -/
def Relationship.BringsOrders (r : Relationship) : Prop :=
  r.hasEnd .order = true ∧ ∀ l ∈ r.trigger.asks, l = .keyword ∨ l = .order

/-- Words and a filter on orders bring orders in. -/
def Schema.BringsOrders (s : Schema) : Prop := ∃ r ∈ s.relationships, r.BringsOrders

instance (r : Relationship) : Decidable r.BringsOrders := inferInstanceAs (Decidable (_ ∧ _))

instance (s : Schema) : Decidable s.BringsOrders := inferInstanceAs (Decidable (∃ r ∈ _, _))

theorem Schema.bringsOrders_retail : Schema.retail.BringsOrders := by decide

/-! ## The default order -/

namespace Request

variable {r : Request}

/-- The default order is kept only where there are words and a filter on orders. -/
theorem words_and_orders_of_sorting (h : r.sorting = some "order_count DESC") :
    r.words.isSome = true ∧ r.has .order = true := by
  unfold sorting at h
  simp only at h
  split at h
  case isTrue => cases h
  case isFalse hmeant =>
    rw [Option.some.injEq] at h
    rw [h] at hmeant
    by_contra hmissing
    exact hmeant (Or.inr ⟨rfl, hmissing⟩)

/-- With the default order, the number of orders is counted if and only if orders are bound. -/
theorem orderCounting_of_sorting (h : r.sorting = some "order_count DESC") (p : Paging)
    (b : Body) (hb : b.binds .keyword = true) : b.orderCounting (r.toSearch p)
      = if b.binds .order then some ⟨"COUNT", "order", "order_count"⟩ else none := by
  have hsorts : (r.toSearch p).sortsByCount = true := by
    unfold Search.sortsByCount
    rw [orderBy_toSearch, h]
    decide
  unfold Body.orderCounting
  rw [hsorts, hb, Bool.true_and, Bool.true_and]
  rfl

end Request

theorem Plan.order_mem_lines {p : Plan} {e : String} (h : p.orderBy = some e) (he : e ≠ "") :
    "ORDER BY " ++ e ∈ p.lines := by
  have hline : p.sortLine? = some ("ORDER BY " ++ e) := by
    unfold Plan.sortLine?
    rw [h]
    simp [he]
  unfold Plan.lines
  rw [hline]
  simp

theorem Schema.orderBy_explore {s : Schema} {p : Paging} {r : Request} :
    (s.explore p r).orderBy = r.sorting := r.orderBy_toSearch p

namespace Search

theorem binds_order_body (s : Search) (schema : Schema) :
    (s.body schema).binds .order = true ↔
      ∃ rel ∈ schema.triggered s.asked, rel.hasEnd .order = true := by
  rw [binds_body]
  simp [Relationship.hasEnd_iff]

end Search

namespace Schema

variable {s : Schema} {p : Paging} {r : Request}

theorem keyword_bound_of_default_order (h : (s.explore p r).orderBy = some "order_count DESC") :
    (s.explore p r).body.binds .keyword = true := by
  rw [orderBy_explore] at h
  unfold explore Search.plan
  rw [Search.binds_body, Request.keyword_toSearch]
  exact Or.inr (Or.inl ⟨rfl, (Request.words_and_orders_of_sorting h).1⟩)

theorem order_bound_iff : (s.explore p r).body.binds .order = true ↔
    ∃ rel ∈ s.triggered r.asked, rel.hasEnd .order = true :=
  (r.toSearch p).binds_order_body s

theorem aggregation_of_default_order (h : (s.explore p r).orderBy = some "order_count DESC") :
    (s.explore p r).aggregation = if (s.explore p r).body.binds .order
      then some ⟨"COUNT", "order", "order_count"⟩ else none :=
  Request.orderCounting_of_sorting (orderBy_explore.symm.trans h) p _
    (keyword_bound_of_default_order h)

/-- Where words and a filter on orders bring orders in, whatever is sorted by them is counted. -/
theorem counts_of_bringsOrders (hs : s.BringsOrders)
    (h : (s.explore p r).orderBy = some "order_count DESC") :
    (s.explore p r).aggregation.isSome = true := by
  obtain ⟨rel, hrel, hend, hasks⟩ := hs
  obtain ⟨hwords, horders⟩ := Request.words_and_orders_of_sorting (orderBy_explore.symm.trans h)
  have hfires : rel.trigger.fires r.asked = true := by
    rw [Trigger.fires_iff]
    intro l hl
    rw [Request.contains_asked]
    rcases hasks l hl with rfl | rfl
    · exact hwords
    · exact horders
  rw [aggregation_of_default_order h,
    if_pos (order_bound_iff.mpr ⟨rel, List.mem_filter.mpr ⟨hrel, hfires⟩, hend⟩)]
  rfl

/-- A request for one word and for one order alone shows what brings the orders in. -/
theorem bringsOrders_of_counts (h : ∀ p r, r.orderBy = none →
      (s.explore p r).orderBy = some "order_count DESC" →
      (s.explore p r).aggregation.isSome = true) : s.BringsOrders := by
  let r : Request := ⟨some "lamp", Filters.empty.insert .order "1", none, none⟩
  have hsorts : (s.explore {} r).orderBy = some "order_count DESC" := by
    rw [orderBy_explore]
    decide
  have hasked : ∀ l, r.asked.contains l = true → l = .keyword ∨ l = .order := by
    intro l
    cases l <;> decide
  have hbound : (s.explore {} r).body.binds .order = true := by
    have hcounted := h {} r rfl hsorts
    rw [aggregation_of_default_order hsorts] at hcounted
    by_contra hnone
    rw [if_neg hnone] at hcounted
    cases hcounted
  obtain ⟨rel, htriggered, hend⟩ := order_bound_iff.mp hbound
  obtain ⟨hrel, hfires⟩ := List.mem_filter.mp htriggered
  exact ⟨rel, hrel, hend, fun l hl => hasked l (Trigger.contains_of_fires hfires hl)⟩

end Schema

/-! ## The law -/

/-- Where the default order is kept, the query has a line that sorts by the number of orders
and binds its words, and it counts the orders if and only if a relationship that comes in has
them for an end. So a schema always counts what it sorts by if and only if words and a filter
on orders bring orders in. -/
theorem the_default_order_is_counted_where_orders_come_in (s : Schema) :
    (∀ p r, (s.explore p r).orderBy = some "order_count DESC" →
      "ORDER BY order_count DESC" ∈ (s.explore p r).lines
      ∧ (s.explore p r).body.binds .keyword = true
      ∧ (s.explore p r).aggregation = (if (s.explore p r).body.binds .order
        then some ⟨"COUNT", "order", "order_count"⟩ else none)
      ∧ ((s.explore p r).body.binds .order = true ↔
        ∃ rel ∈ s.triggered r.asked, rel.hasEnd .order = true))
    ∧ ((∀ p r, r.orderBy = none → (s.explore p r).orderBy = some "order_count DESC" →
        (s.explore p r).aggregation.isSome = true) ↔ s.BringsOrders) := by
  refine ⟨?_, Schema.bringsOrders_of_counts, fun hs p r _ h => Schema.counts_of_bringsOrders hs h⟩
  intro p r h
  exact ⟨Plan.order_mem_lines h (by decide), Schema.keyword_bound_of_default_order h,
    Schema.aggregation_of_default_order h, Schema.order_bound_iff⟩

/-- The retail schema counts the orders of every search that it sorts by default. -/
theorem the_retail_schema_counts_what_it_sorts_by :
    (Schema.retail.explore {}
        ⟨some "lamp", Filters.empty.insert .order "1", none, none⟩).aggregation.isSome = true :=
  (the_default_order_is_counted_where_orders_come_in Schema.retail).2.mpr
    Schema.bringsOrders_retail {} ⟨some "lamp", Filters.empty.insert .order "1", none, none⟩ rfl
    (by decide)

/-- Two tables without relationships of orders make a schema, and a search over it is sorted by
a number that it does not count. -/
theorem a_schema_without_orders_sorts_by_what_it_does_not_count :
    ∃ s, Schema.ofTables (Schema.retailRelationships.take 2) Schema.retailKeys = .ok s
      ∧ ∃ r : Request, r.orderBy = none
        ∧ (s.explore {} r).orderBy = some "order_count DESC"
        ∧ "ORDER BY order_count DESC" ∈ (s.explore {} r).lines
        ∧ (s.explore {} r).aggregation = none
        ∧ (s.explore {} r).body.binds .order = false := by
  refine ⟨⟨Schema.retailRelationships.take 2, Schema.retailKeys⟩, rfl,
    ⟨some "lamp", Filters.empty.insert .order "o1", none, none⟩, rfl, ?_, ?_, ?_, ?_⟩
  · decide
  · exact Plan.order_mem_lines (by decide : _ = some "order_count DESC") (by decide)
  · decide
  · decide

end ShopQuery
