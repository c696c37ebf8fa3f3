-- Clashes of variables. The nodes of a query take their variables from the labels, and its
-- relationships take theirs from the table. A schema keeps the relationships apart from each
-- other but not from the labels, so a query over it may use one variable for two things. The laws
-- say when that happens, and which schemas never do it.
import ShopQuery.Proofs.Neighbourhood
import ShopQuery.Proofs.OrderCounting

namespace ShopQuery

/-! ## The variables of a plan -/

namespace Schema

variable {s : Schema}

/-- Whatever part of the table a query follows, the variables of its relationships differ. -/
theorem nodup_vars_filter (hd : Distinct s.relationships) (p : Relationship → Bool) :
    ((s.relationships.filter p).map (·.var)).Nodup :=
  hd.vars.sublist (List.filter_sublist.map _)

theorem vars_explore (s : Schema) (p : Paging) (r : Request) :
    (s.explore p r).body.vars = (s.triggered r.asked).map (·.var) :=
  Search.vars_body _ s

theorem nodup_vars_explore (hd : Distinct s.relationships) (p : Paging) (r : Request) :
    (s.explore p r).body.vars.Nodup := by
  rw [vars_explore]
  exact nodup_vars_filter hd _

/-- In a search only a relationship and a node can have one variable. -/
theorem unambiguous_explore_iff (hd : Distinct s.relationships) (p : Paging) (r : Request) :
    (s.explore p r).body.Unambiguous ↔
      ∀ rel ∈ s.triggered r.asked, ∀ l, (s.explore p r).body.binds l = true →
        rel.var ≠ l.var := by
  constructor
  · intro hb rel hrel l hl hvar
    apply hb.nodes l hl
    rw [vars_explore, ← hvar]
    exact List.mem_map_of_mem hrel
  · intro hapart
    refine ⟨nodup_vars_explore hd p r, fun l hl hmem => ?_⟩
    rw [vars_explore] at hmem
    obtain ⟨rel, hrel, hvar⟩ := List.mem_map.mp hmem
    exact hapart rel hrel l hl hvar

theorem nodup_vars_inspect (hd : Distinct s.relationships) {spelling : String} {params : Params}
    {plan : Plan} (h : s.inspect spelling params = .ok plan) : plan.body.vars.Nodup := by
  obtain ⟨l, k, value, _, _, rfl⟩ := found_of_inspect h
  rw [Inspection.vars_body]
  exact nodup_vars_filter hd _

/-! ## Tables that keep the two kinds apart -/

/-- A query over the schema can bind the label: products, the words of a search, or an end of a
relationship. -/
def CanBind (s : Schema) (l : Label) : Prop :=
  l = .product ∨ l = .keyword ∨ ∃ r ∈ s.relationships, r.hasEnd l = true

/-- No relationship has the variable of a label that can be bound. -/
def KeepsApart (s : Schema) : Prop :=
  ∀ r ∈ s.relationships, ∀ l ∈ Label.all, s.CanBind l → r.var ≠ l.var

instance (l : Label) : Decidable (s.CanBind l) := inferInstanceAs (Decidable (_ ∨ _ ∨ ∃ r ∈ _, _))

instance : Decidable s.KeepsApart :=
  inferInstanceAs (Decidable (∀ r ∈ s.relationships, ∀ l ∈ Label.all, s.CanBind l → r.var ≠ l.var))

theorem keepsApart_retail : retail.KeepsApart := by decide

theorem canBind_of_explore {p : Paging} {r : Request} {l : Label}
    (h : (s.explore p r).body.binds l = true) : s.CanBind l := by
  rcases ((r.toSearch p).binds_body s l).mp h with hl | ⟨hl, _⟩ | ⟨rel, hrel, hend⟩
  · exact Or.inl hl
  · exact Or.inr (Or.inl hl)
  · exact Or.inr (Or.inr ⟨rel, List.mem_of_mem_filter hrel, (rel.hasEnd_iff l).mpr hend⟩)

theorem unambiguous_explore (hd : Distinct s.relationships) (hs : s.KeepsApart) (p : Paging)
    (r : Request) : (s.explore p r).body.Unambiguous := by
  rw [unambiguous_explore_iff hd]
  intro rel hrel l hl
  exact hs rel (List.mem_of_mem_filter hrel) l l.mem_all (canBind_of_explore hl)

theorem unambiguous_inspect (hd : Distinct s.relationships) (hs : s.KeepsApart) {spelling : String}
    {params : Params} {plan : Plan} (h : s.inspect spelling params = .ok plan) :
    plan.body.Unambiguous := by
  refine ⟨nodup_vars_inspect hd h, fun m hm hmem => ?_⟩
  obtain ⟨l, k, value, _, _, rfl⟩ := found_of_inspect h
  rw [Inspection.vars_body] at hmem
  obtain ⟨rel, hrel, hvar⟩ := List.mem_map.mp hmem
  obtain ⟨htable, hfollowed⟩ := List.mem_filter.mp hrel
  have hcan : s.CanBind m := by
    rcases (Inspection.binds_body s l k value m).mp hm with rfl | ⟨other, hother, hend⟩
    · -- The label itself is an end of each relationship that is followed.
      have hend : m = rel.source ∨ m = rel.target :=
        (of_decide_eq_true hfollowed).2.imp Eq.symm Eq.symm
      exact Or.inr (Or.inr ⟨rel, htable, (rel.hasEnd_iff m).mpr hend⟩)
    · exact Or.inr (Or.inr ⟨other, List.mem_of_mem_filter hother, (other.hasEnd_iff m).mpr hend⟩)
  exact hs rel htable m m.mem_all hcan hvar

end Schema

/-! ## A search for everything -/

/-- A request with words and a filter on every label. -/
def Request.everything : Request := ⟨some "lamp", ⟨fun _ => some "1"⟩, none, none⟩

theorem Request.contains_everything (l : Label) : everything.asked.contains l = true := by
  cases l <;> decide

namespace Schema

variable {s : Schema}

theorem triggered_everything (s : Schema) :
    s.triggered Request.everything.asked = s.relationships := by
  rw [triggered, List.filter_eq_self]
  intro rel _
  rw [Trigger.fires_iff]
  exact fun l _ => Request.contains_everything l

theorem binds_everything (p : Paging) {l : Label} (h : s.CanBind l) :
    (s.explore p Request.everything).body.binds l = true := by
  refine ((Request.everything.toSearch p).binds_body s l).mpr ?_
  rcases h with hl | hl | ⟨rel, hrel, hend⟩
  · exact Or.inl hl
  · exact Or.inr (Or.inl ⟨hl, rfl⟩)
  · refine Or.inr (Or.inr ⟨rel, ?_, (rel.hasEnd_iff l).mp hend⟩)
    rw [Request.asked_toSearch, triggered_everything]
    exact hrel

/-- The search for everything brings in all that can clash. -/
theorem keepsApart_of_everything (hd : Distinct s.relationships)
    (h : (s.explore {} Request.everything).body.Unambiguous) : s.KeepsApart := by
  rw [unambiguous_explore_iff hd, triggered_everything] at h
  exact fun rel hrel l _ hl => h rel hrel l (binds_everything {} hl)

end Schema

/-! ## The law -/

/-- In a schema no two relationships of a query share a variable, so a search returns a variable
twice only if a relationship that it follows has the variable of a node. A schema never uses a
variable twice, in no search and in no inspection, if and only if its table keeps relationships
and labels apart. -/
theorem a_variable_is_used_twice_only_by_a_node_and_a_relationship
    {relationships : List Relationship} {keys : List (Label × String)} {s : Schema}
    (h : Schema.ofTables relationships keys = .ok s) :
    (∀ p r, (s.explore p r).projection = .vars (s.explore p r).body.returnedVars
      ∧ ((s.explore p r).body.returnedVars.Nodup ↔
        ∀ rel ∈ s.triggered r.asked, ∀ l, (s.explore p r).body.binds l = true → rel.var ≠ l.var))
    ∧ (∀ spelling params plan, s.inspect spelling params = .ok plan → plan.body.vars.Nodup)
    ∧ (((∀ p r, (s.explore p r).body.returnedVars.Nodup)
        ∧ ∀ spelling params plan, s.inspect spelling params = .ok plan →
          plan.body.Unambiguous) ↔ s.KeepsApart) := by
  obtain ⟨rfl, hd, _⟩ := Schema.ofTables_eq_ok.mp h
  refine ⟨?_, fun _ _ _ hplan => Schema.nodup_vars_inspect hd hplan, ?_, ?_⟩
  · intro p r
    exact ⟨rfl, (Body.nodup_returnedVars_iff _).trans (Schema.unambiguous_explore_iff hd p r)⟩
  · rintro ⟨hsearches, _⟩
    exact Schema.keepsApart_of_everything hd ((Body.nodup_returnedVars_iff _).mp (hsearches _ _))
  · intro hs
    refine ⟨fun p r => ?_, fun _ _ _ hplan => Schema.unambiguous_inspect hd hs hplan⟩
    exact (Body.nodup_returnedVars_iff _).mpr (Schema.unambiguous_explore hd hs p r)

/-- Over the retail schema a search for words and orders returns each variable once. -/
theorem retail_variables_are_returned_once :
    Schema.ofTables Schema.retailRelationships Schema.retailKeys = .ok Schema.retail
      ∧ (Schema.retail.explore {}
        ⟨some "lamp", Filters.empty.insert .order "1", none, none⟩).body.returnedVars.Nodup :=
  ⟨Schema.ofTables_retail,
    ((a_variable_is_used_twice_only_by_a_node_and_a_relationship
      Schema.ofTables_retail).2.2.mpr Schema.keepsApart_retail).1 _ _⟩

/-- A table whose one relationship is called like the products makes a schema. A search over it
returns this variable twice, and an inspection of a product binds it to two things. -/
theorem a_schema_may_call_a_relationship_like_a_node :
    ∃ s, Schema.ofTables
        [⟨"IS_SUPPLIED_BY", "product", .product, .supplier, .one .supplier, false⟩]
        Schema.retailKeys = .ok s
      ∧ ¬ (s.explore {}
          ⟨none, Filters.empty.insert .supplier "s1", none, none⟩).body.returnedVars.Nodup
      ∧ ∃ plan, s.inspect "Product" ⟨[("product_id", "42")]⟩ = .ok plan
        ∧ plan.body.binds .product = true ∧ Label.product.var ∈ plan.body.vars := by
  refine ⟨⟨[⟨"IS_SUPPLIED_BY", "product", .product, .supplier, .one .supplier, false⟩],
    Schema.retailKeys⟩, rfl, ?_, _, rfl, ?_, ?_⟩
  · rw [Body.nodup_returnedVars_iff]
    intro hb
    exact hb.nodes .product (by decide) (by decide)
  · decide
  · decide

end ShopQuery
