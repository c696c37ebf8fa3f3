-- Tables of relationships in which the graph grows from the products: each stored relationship
-- leads from what is there whenever it comes in to a label that is new. The clauses of a search
-- over such a table can be walked to their end, whatever was asked for.
import ShopQuery.Proofs.Scopes
import ShopQuery.Proofs.SearchBody

namespace ShopQuery

/-! ## Tables that grow -/

/-- The labels that the trigger asks for. -/
def Trigger.asks : Trigger → List Label
  | one label => [label]
  | under parent child => [parent, child]

theorem Trigger.contains_of_fires {t : Trigger} {asked : LabelSet} (h : t.fires asked = true)
    {l : Label} (hl : l ∈ t.asks) : asked.contains l = true := by
  cases t with
  | one label =>
    rw [List.mem_singleton.mp hl]
    exact h
  | under parent child =>
    unfold fires at h
    rw [Bool.and_eq_true] at h
    rcases List.mem_cons.mp hl with rfl | hl
    · exact h.1
    · rw [List.mem_singleton.mp hl]
      exact h.2

/-- The names that no relationship may use as its variable. -/
def reservedVars : List String := orderCount :: Label.all.map Label.var

theorem Label.var_mem_reservedVars (l : Label) : l.var ∈ reservedVars :=
  List.mem_cons_of_mem _ (List.mem_map_of_mem l.mem_all)

namespace Relationship

/-- Nodes with the label are there whenever the relationship comes in: products always, and
the words and what one earlier relationship brings in when the trigger asks for them. -/
def Finds (r : Relationship) (earlier : List Relationship) (l : Label) : Prop :=
  l = .product ∨ (l ∈ r.trigger.asks ∧
    (l = .keyword ∨ ∃ e ∈ earlier, e.isVirtual = false ∧ e.trigger = .one l))

/-- The relationship brings the label in, and nothing before it does. -/
def Brings (r : Relationship) (earlier : List Relationship) (l : Label) : Prop :=
  l = r.trigger.label ∧ l ≠ .product ∧ l ≠ .keyword ∧
    ∀ e ∈ earlier, e.isVirtual = false → e.trigger.label ≠ l

/-- One end is there and the other is brought in; for a relationship that is made, both ends
are there. Its variable is of its own. -/
structure Follows (r : Relationship) (earlier : List Relationship) : Prop where
  ends : if r.isVirtual then r.Finds earlier r.source ∧ r.Finds earlier r.target
    else (r.Finds earlier r.source ∧ r.Brings earlier r.target)
      ∨ (r.Finds earlier r.target ∧ r.Brings earlier r.source)
  var : ∀ e ∈ earlier, e.var ≠ r.var
  reserved : r.var ∉ reservedVars

instance (r : Relationship) (earlier : List Relationship) (l : Label) :
    Decidable (r.Finds earlier l) := inferInstanceAs (Decidable (_ ∨ _))

instance (r : Relationship) (earlier : List Relationship) (l : Label) :
    Decidable (r.Brings earlier l) := inferInstanceAs (Decidable (_ ∧ _))

instance (r : Relationship) (earlier : List Relationship) : Decidable (r.Follows earlier) :=
  decidable_of_iff (_ ∧ _ ∧ _) ⟨fun h => ⟨h.1, h.2.1, h.2.2⟩, fun h => ⟨h.1, h.2, h.3⟩⟩

end Relationship

/-- The relationships of the table follow one another. -/
def GrowsFrom (earlier : List Relationship) : List Relationship → Prop
  | [] => True
  | r :: rest => r.Follows earlier ∧ GrowsFrom (earlier ++ [r]) rest

def decidableGrowsFrom : (earlier table : List Relationship) → Decidable (GrowsFrom earlier table)
  | _, [] => isTrue trivial
  | earlier, r :: rest =>
    have := decidableGrowsFrom (earlier ++ [r]) rest
    inferInstanceAs (Decidable (_ ∧ _))

instance (earlier table : List Relationship) : Decidable (GrowsFrom earlier table) :=
  decidableGrowsFrom earlier table

theorem growsFrom_retail : GrowsFrom [] Schema.retail.relationships := by decide

/-- Read backwards, the table has what is under an order before there are orders. -/
example : ¬ GrowsFrom [] Schema.retail.relationships.reverse := by decide

/-! ## Walks over a part of the table -/

/-- The labels that are bound once a part of the table has been gone through. -/
def Covered (asked : LabelSet) (earlier : List Relationship) (l : Label) : Prop :=
  l = .product ∨ (l = .keyword ∧ asked.contains .keyword = true) ∨
    ∃ e ∈ earlier, e.isVirtual = false ∧ e.trigger.fires asked = true ∧ e.trigger.label = l

variable {asked : LabelSet} {earlier : List Relationship} {r : Relationship} {s : Scope}

theorem covered_of_finds {l : Label} (h : r.Finds earlier l)
    (hf : r.trigger.fires asked = true) : Covered asked earlier l := by
  rcases h with rfl | ⟨hl, rfl | ⟨e, he, hstored, htrigger⟩⟩
  · exact Or.inl rfl
  · exact Or.inr (Or.inl ⟨rfl, Trigger.contains_of_fires hf hl⟩)
  · refine Or.inr (Or.inr ⟨e, he, hstored, ?_, ?_⟩)
    · rw [htrigger]
      exact Trigger.contains_of_fires hf hl
    · rw [htrigger]
      rfl

theorem not_covered_of_brings {l : Label} (h : r.Brings earlier l) : ¬ Covered asked earlier l := by
  obtain ⟨_, hproduct, hkeyword, hnew⟩ := h
  rintro (hl | ⟨hl, _⟩ | ⟨e, he, hstored, _, hl⟩)
  · exact hproduct hl
  · exact hkeyword hl
  · exact hnew e he hstored hl

theorem covered_append (l : Label) : Covered asked (earlier ++ [r]) l ↔
    Covered asked earlier l ∨
      (r.isVirtual = false ∧ r.trigger.fires asked = true ∧ r.trigger.label = l) := by
  unfold Covered
  simp only [List.mem_append, List.mem_singleton, or_and_right, exists_or, exists_eq_left, or_assoc]

/-- The scope holds the nodes of what is covered, and the relationships that came in. -/
structure Reached (asked : LabelSet) (earlier : List Relationship) (s : Scope) : Prop where
  nodes : ∀ v, v ∈ s.nodes ↔ ∃ l, Covered asked earlier l ∧ l.var = v
  steps : s.steps = (earlier.filter (·.trigger.fires asked)).map (·.var)
  apart : ∀ e ∈ earlier, e.var ∉ reservedVars

namespace Reached

theorem var_mem_nodes (h : Reached asked earlier s) (l : Label) :
    l.var ∈ s.nodes ↔ Covered asked earlier l := by
  rw [h.nodes]
  constructor
  · rintro ⟨k, hk, hvar⟩
    rwa [← Label.var_injective hvar]
  · intro hl
    exact ⟨l, hl, rfl⟩

theorem mem_of_mem_steps (h : Reached asked earlier s) {v : String} (hv : v ∈ s.steps) :
    ∃ e ∈ earlier, e.var = v := by
  rw [h.steps] at hv
  obtain ⟨e, he, hvar⟩ := List.mem_map.mp hv
  exact ⟨e, List.mem_of_mem_filter he, hvar⟩

/-- The node of a label that is not covered can be added. -/
theorem var_not_mem_vars (h : Reached asked earlier s) {l : Label}
    (hl : ¬ Covered asked earlier l) : l.var ∉ s.vars := by
  intro hv
  rcases List.mem_append.mp hv with hv | hv
  · exact hl ((h.var_mem_nodes l).mp hv)
  · obtain ⟨e, he, hvar⟩ := h.mem_of_mem_steps hv
    apply h.apart e he
    rw [hvar]
    exact l.var_mem_reservedVars

theorem fresh_of_follows (h : Reached asked earlier s) (hr : r.Follows earlier) :
    r.var ∉ s.vars := by
  intro hv
  rcases List.mem_append.mp hv with hv | hv
  · obtain ⟨l, _, hvar⟩ := (h.nodes _).mp hv
    apply hr.reserved
    rw [← hvar]
    exact l.var_mem_reservedVars
  · obtain ⟨e, he, hvar⟩ := h.mem_of_mem_steps hv
    exact hr.var e he hvar

theorem apart_append (h : Reached asked earlier s) (hr : r.Follows earlier) :
    ∀ e ∈ earlier ++ [r], e.var ∉ reservedVars := by
  intro e he
  rcases List.mem_append.mp he with he | he
  · exact h.apart e he
  · rw [List.mem_singleton.mp he]
    exact hr.reserved

theorem steps_append (h : Reached asked earlier s) (hf : r.trigger.fires asked = true) :
    s.steps ++ [r.var] = ((earlier ++ [r]).filter (·.trigger.fires asked)).map (·.var) := by
  have hone : [r].filter (·.trigger.fires asked) = [r] := List.filter_cons_of_pos hf
  rw [List.filter_append, hone, List.map_append, ← h.steps]
  rfl

/-- A relationship that is not brought in changes nothing. -/
theorem skip (h : Reached asked earlier s) (hr : r.Follows earlier)
    (hf : r.trigger.fires asked = false) : Reached asked (earlier ++ [r]) s := by
  refine ⟨?_, ?_, h.apart_append hr⟩
  · intro v
    rw [h.nodes]
    simp only [covered_append, hf, Bool.false_eq_true, false_and, and_false, or_false]
  · have hnone : [r].filter (·.trigger.fires asked) = [] :=
      List.filter_cons_of_neg (by rw [hf]; decide)
    rw [List.filter_append, hnone, List.append_nil, h.steps]

theorem bring (h : Reached asked earlier s) (hr : r.Follows earlier)
    (hf : r.trigger.fires asked = true) (hstored : r.isVirtual = false) {l : Label}
    (hl : r.Brings earlier l) :
    ∃ t, (s.withNode? l.var).bind (·.withStep? r.var) = some t ∧
      Reached asked (earlier ++ [r]) t := by
  have hnode := h.var_not_mem_vars (not_covered_of_brings hl)
  have hstep : r.var ∉ Scope.vars { s with nodes := s.nodes ++ [l.var] } := by
    have hvar := h.fresh_of_follows hr
    have hother : r.var ≠ l.var := by
      intro hv
      apply hr.reserved
      rw [hv]
      exact l.var_mem_reservedVars
    unfold Scope.vars at hvar ⊢
    simp only [List.mem_append, List.mem_singleton, not_or] at hvar ⊢
    exact ⟨⟨hvar.1, hother⟩, hvar.2⟩
  refine ⟨⟨s.nodes ++ [l.var], s.steps ++ [r.var]⟩, ?_, ?_, h.steps_append hf, h.apart_append hr⟩
  · rw [Scope.withNode?_eq_some.mpr ⟨hnode, rfl⟩, Option.bind_some]
    exact Scope.withStep?_eq_some.mpr ⟨hstep, rfl⟩
  · intro v
    rw [List.mem_append, List.mem_singleton, h.nodes]
    simp only [covered_append, hf, hstored, true_and, or_and_right, exists_or, ← hl.1,
      exists_eq_left', eq_comm]

/-- The clause of a relationship that comes in finds its place. -/
theorem step (h : Reached asked earlier s) (hr : r.Follows earlier)
    (hf : r.trigger.fires asked = true) :
    ∃ t, s.after? (.traversal (r.traversal .optional)) = some t ∧
      Reached asked (earlier ++ [r]) t := by
  have hends := hr.ends
  by_cases hv : r.isVirtual = true
  · have hmode : (r.traversal .optional).mode = .made := if_pos hv
    rw [if_pos hv] at hends
    have hsource := (h.var_mem_nodes _).mpr (covered_of_finds hends.1 hf)
    have htarget := (h.var_mem_nodes _).mpr (covered_of_finds hends.2 hf)
    refine ⟨⟨s.nodes, s.steps ++ [r.var]⟩, ?_, ?_, h.steps_append hf, h.apart_append hr⟩
    · exact (Scope.along?_of_made hmode hsource htarget).trans
        (Scope.withStep?_eq_some.mpr ⟨h.fresh_of_follows hr, rfl⟩)
    · intro v
      rw [h.nodes]
      simp only [covered_append, hv, Bool.true_eq_false, false_and, or_false]
  · have hmode : (r.traversal .optional).mode = .optional := if_neg hv
    rw [if_neg hv] at hends
    rw [Bool.not_eq_true] at hv
    rcases hends with ⟨hfound, hnew⟩ | ⟨hfound, hnew⟩
    · have hsource := (h.var_mem_nodes _).mpr (covered_of_finds hfound hf)
      obtain ⟨t, ht, hreached⟩ := h.bring hr hf hv hnew
      exact ⟨t, (Scope.along?_of_source hmode hsource).trans ht, hreached⟩
    · have htarget := (h.var_mem_nodes _).mpr (covered_of_finds hfound hf)
      -- The source is new, so the walk does not take it for the end that is there.
      have hsource : r.source.var ∉ s.nodes := fun hs =>
        not_covered_of_brings hnew ((h.var_mem_nodes _).mp hs)
      obtain ⟨t, ht, hreached⟩ := h.bring hr hf hv hnew
      exact ⟨t, (Scope.along?_of_target hmode hsource htarget).trans ht, hreached⟩

/-- The rest of the table can be walked from what is reached. -/
theorem walk {rest : List Relationship} (h : Reached asked earlier s)
    (hg : GrowsFrom earlier rest) :
    ∃ t, s.walk? ((rest.filter (·.trigger.fires asked)).map
        fun r => .traversal (r.traversal .optional)) = some t ∧
      Reached asked (earlier ++ rest) t := by
  -- On what is left of the table; the part before it grows by one entry in each step.
  induction rest generalizing earlier s with
  | nil => exact ⟨s, rfl, by rwa [List.append_nil]⟩
  | cons r rest ih =>
    obtain ⟨hr, hrest⟩ := hg
    by_cases hf : r.trigger.fires asked = true
    · obtain ⟨t, ht, hreached⟩ := h.step hr hf
      obtain ⟨u, hu, hend⟩ := ih hreached hrest
      rw [List.append_assoc, List.singleton_append] at hend
      refine ⟨u, ?_, hend⟩
      have hcons : (r :: rest).filter (·.trigger.fires asked)
          = r :: rest.filter (·.trigger.fires asked) := List.filter_cons_of_pos hf
      rw [hcons, List.map_cons, Scope.walk?, ht]
      exact hu
    · rw [Bool.not_eq_true] at hf
      obtain ⟨u, hu, hend⟩ := ih (h.skip hr hf) hrest
      rw [List.append_assoc, List.singleton_append] at hend
      refine ⟨u, ?_, hend⟩
      have hcons : (r :: rest).filter (·.trigger.fires asked)
          = rest.filter (·.trigger.fires asked) := List.filter_cons_of_neg (by rw [hf]; decide)
      rw [hcons]
      exact hu

end Reached

/-! ## Searches -/

namespace Search

/-- The clauses before the relationships bind what is covered at the beginning. -/
theorem walk_rootClauses {search : Search}
    (hk : search.asked.contains .keyword = search.keyword.isSome) :
    ∃ t, Scope.walk? {} (rootClauses search.keyword) = some t ∧ Reached search.asked [] t := by
  have hcovered : ∀ l, Covered search.asked [] l ↔
      l = .product ∨ (l = .keyword ∧ search.keyword.isSome = true) := by
    intro l
    unfold Covered
    rw [hk]
    simp
  rcases hw : search.keyword with _ | k
  · refine ⟨⟨["product"], []⟩, rfl, ?_, rfl, fun e he => by cases he⟩
    intro v
    simp only [hcovered, hw]
    simp [Label.var, eq_comm]
  · refine ⟨⟨["keyword", "product"], []⟩, rfl, ?_, rfl, fun e he => by cases he⟩
    intro v
    simp only [hcovered, hw]
    simp [Label.var, eq_comm, or_comm]

/-- Over a table that grows, the clauses of a search can be walked to their end. -/
theorem walk_body {search : Search} {schema : Schema} (hg : GrowsFrom [] schema.relationships)
    (hk : search.asked.contains .keyword = search.keyword.isSome) :
    ∃ t, Scope.walk? {} (search.body schema).clauses = some t ∧
      Reached search.asked schema.relationships t ∧ Records t (search.body schema) := by
  obtain ⟨s, hs, hstart⟩ := walk_rootClauses hk
  obtain ⟨t, ht, hend⟩ := hstart.walk hg
  have hwalk : Scope.walk? {} (search.body schema).clauses = some t := by
    rw [clauses_body, Scope.walk?_append, hs]
    exact ht
  have hrecords : Records t (search.body schema) := by
    rw [clauses_body] at hwalk
    exact Records.empty.walk hwalk
  exact ⟨t, hwalk, hend, hrecords⟩

end Search

theorem Reached.orderCount_not_mem (h : Reached asked earlier s) : orderCount ∉ s.vars := by
  intro hv
  rcases List.mem_append.mp hv with hv | hv
  · obtain ⟨l, _, hvar⟩ := (h.nodes _).mp hv
    revert hvar
    cases l <;> decide
  · obtain ⟨e, he, hvar⟩ := h.mem_of_mem_steps hv
    apply h.apart e he
    rw [hvar]
    exact List.mem_cons_self

theorem orderCounting_spec {b : Body} {search : Search} {a : Aggregation} (hb : Records s b)
    (ha : b.orderCounting search = some a) : a.argument ∈ s.vars ∧ a.name = orderCount := by
  unfold Body.orderCounting at ha
  split at ha
  case isTrue hcounts =>
    cases ha
    rw [Bool.and_eq_true] at hcounts
    exact ⟨List.mem_append_left _ ((hb.nodes _).mpr ⟨.order, hcounts.2, rfl⟩), rfl⟩
  case isFalse => cases ha

/-! ## The law -/

/-- The clauses of a query can be walked to their end, whatever the request: each uses what is
there and binds what is new. What they bind is returned, each variable once and nothing else,
and a number of orders counts a bound variable under a name that is free. -/
theorem every_query_is_well_scoped (p : Paging) (r : Request) :
    ∃ s : Scope, Scope.walk? {} (Schema.retail.explore p r).body.clauses = some s
      ∧ (∃ names, (Schema.retail.explore p r).projection = .vars names ∧ names.Nodup
        ∧ ∀ v, v ∈ names ↔ v ∈ s.vars)
      ∧ ∀ a, (Schema.retail.explore p r).aggregation = some a →
        a.argument ∈ s.vars ∧ a.name ∉ s.vars := by
  have hk : (r.toSearch p).asked.contains .keyword = (r.toSearch p).keyword.isSome := by
    rw [Request.keyword_toSearch]
    exact r.contains_asked .keyword
  obtain ⟨s, hwalk, hreached, hrecords⟩ := Search.walk_body growsFrom_retail hk
  refine ⟨s, hwalk, ⟨_, rfl, hrecords.nodup_returnedVars, hrecords.mem_returnedVars⟩, ?_⟩
  intro a ha
  obtain ⟨hargument, hname⟩ := orderCounting_spec hrecords ha
  refine ⟨hargument, ?_⟩
  rw [hname]
  exact hreached.orderCount_not_mem

/-- A search for words and orders counts the orders. -/
theorem orders_are_counted_in_scope :
    ∃ s : Scope, Scope.walk? {} (Schema.retail.explore {}
        ⟨some "lamp", Filters.empty.insert .order "1", none, none⟩).body.clauses = some s
      ∧ "order" ∈ s.vars ∧ "order_count" ∉ s.vars := by
  obtain ⟨s, hwalk, _, hcount⟩ :=
    every_query_is_well_scoped {} ⟨some "lamp", Filters.empty.insert .order "1", none, none⟩
  have hcounting : (Schema.retail.explore {}
      ⟨some "lamp", Filters.empty.insert .order "1", none, none⟩).aggregation
        = some ⟨"COUNT", "order", "order_count"⟩ := by decide
  exact ⟨s, hwalk, hcount _ hcounting⟩

end ShopQuery
