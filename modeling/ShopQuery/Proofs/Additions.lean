-- What asking for more does to a search. A trigger that fires still fires when more labels are
-- asked for, so every clause stays and keeps its place among the others. More clauses never take a
-- variable away, and in the order of return the variables stay in line when others come between.
import Mathlib.Data.List.Flatten
import ShopQuery.Proofs.OrderCounting
import ShopQuery.Proofs.ReturnOrder
import ShopQuery.Proofs.Tables

namespace ShopQuery

/-! ## Less and more -/

/-- The search asks for no label that the other does not ask for, and its words are those of the
other one, if it has any. -/
structure Search.Below (a b : Search) : Prop where
  asked : ∀ l, a.asked.contains l = true → b.asked.contains l = true
  words : a.keyword = none ∨ a.keyword = b.keyword

/-- All of one body is in the other, in the same order. -/
structure Body.Within (b c : Body) : Prop where
  clauses : b.clauses.Sublist c.clauses
  vars : b.vars.Sublist c.vars
  bound : ∀ l, b.binds l = true → c.binds l = true
  returned : b.returnedVars.Sublist c.returnedVars

/-! ## More clauses -/

/-- Sorting keeps a part of a list in order, whatever the other members are. -/
theorem mergeSort_sublist {xs ys : List String} (h : xs.Sublist ys) :
    (xs.mergeSort fun x y => decide (x ≤ y)).Sublist (ys.mergeSort fun x y => decide (x ≤ y)) := by
  have hmembers : (xs.mergeSort fun x y => decide (x ≤ y)).Subperm
      (ys.mergeSort fun x y => decide (x ≤ y)) :=
    (List.mergeSort_perm _ _).subperm.trans
      (h.subperm.trans (List.mergeSort_perm _ _).symm.subperm)
  exact List.sublist_of_subperm_of_pairwise hmembers
    (List.pairwise_mergeSort' (· ≤ ·) xs) (List.pairwise_mergeSort' (· ≤ ·) ys)

theorem Body.within_ofList {cs ds : List Clause} (h : cs.Sublist ds) :
    (ofList cs).Within (ofList ds) := by
  have hvars : (ofList cs).vars.Sublist (ofList ds).vars := by
    rw [vars_ofList, vars_ofList]
    exact h.flatMap _
  have hbound : ∀ l, (ofList cs).binds l = true → (ofList ds).binds l = true := by
    intro l hl
    obtain ⟨c, hc, hbinds⟩ := binds_ofList_iff.mp hl
    exact binds_ofList_iff.mpr ⟨c, h.subset hc, hbinds⟩
  refine ⟨?_, hvars, hbound, ?_⟩
  · rw [clauses_ofList, clauses_ofList]
    exact h
  · apply List.Sublist.append
    · exact (List.monotone_filter_right _ hbound).map _
    · exact mergeSort_sublist hvars

/-! ## More labels -/

theorem Trigger.fires_mono {t : Trigger} {x y : LabelSet}
    (h : ∀ l, x.contains l = true → y.contains l = true) (hx : t.fires x = true) :
    t.fires y = true := by
  rw [fires_iff] at hx ⊢
  intro l hl
  exact h l (hx l hl)

theorem Search.rootClauses_sublist {k k' : Option String} (h : k = none ∨ k = k') :
    (rootClauses k).Sublist (rootClauses k') := by
  rcases h with rfl | rfl
  · -- Without words there are only the products, and they stand between the clauses for words.
    cases k' with
    | none => exact List.Sublist.refl _
    | some words => exact ((List.nil_sublist _).cons_cons _).cons _
  · exact List.Sublist.refl _

theorem Search.Below.within {a b : Search} (h : a.Below b) (schema : Schema) :
    (a.body schema).Within (b.body schema) := by
  have hsteps : (schema.triggered a.asked).Sublist (schema.triggered b.asked) :=
    List.monotone_filter_right _ fun _ => Trigger.fires_mono h.asked
  exact Body.within_ofList ((rootClauses_sublist h.words).append (hsteps.map _))

/-- Each relationship comes in by its own trigger and by nothing else. -/
theorem Search.follows_iff {schema : Schema} (hd : Schema.Distinct schema.relationships)
    (n : Search) {r : Relationship} (hr : r ∈ schema.relationships) :
    .traversal (r.traversal .optional) ∈ (n.body schema).clauses
      ↔ r.trigger.fires n.asked = true := by
  rw [clauses_body, List.mem_append, List.mem_map]
  constructor
  · rintro (hroot | ⟨r', hr', hstep⟩)
    · rcases hwords : n.keyword with _ | words <;> simp [hwords, rootClauses] at hroot
    · obtain ⟨htable, hfires⟩ := List.mem_filter.mp hr'
      have hvar : r'.var = r.var := congrArg Traversal.var (Clause.traversal.inj hstep)
      rwa [← List.inj_on_of_nodup_map hd.vars htable hr hvar]
  · intro hfires
    exact Or.inr ⟨r, List.mem_filter.mpr ⟨hr, hfires⟩, rfl⟩

/-! ## The law -/

/-- A search that asks for more has all clauses, variables and bound labels of one that asks for
less, and returns all that it returns, everything in the same order. What a search follows is
exactly what its labels trigger. -/
theorem asking_for_more_only_adds {relationships : List Relationship}
    {keys : List (Label × String)} {s : Schema}
    (h : Schema.ofTables relationships keys = .ok s) {a b : Search} (hab : a.Below b) :
    (a.body s).clauses.Sublist (b.body s).clauses
    ∧ (a.body s).vars.Sublist (b.body s).vars
    ∧ (∀ l, (a.body s).binds l = true → (b.body s).binds l = true)
    ∧ (∃ fewer more, (a.plan s).projection = .vars fewer ∧ (b.plan s).projection = .vars more
      ∧ fewer.Sublist more)
    ∧ ∀ n : Search, ∀ r ∈ relationships,
      .traversal (r.traversal .optional) ∈ (n.body s).clauses ↔ r.trigger.fires n.asked = true := by
  obtain ⟨rfl, hd, _⟩ := Schema.ofTables_eq_ok.mp h
  have hwithin := hab.within ⟨relationships, keys⟩
  exact ⟨hwithin.clauses, hwithin.vars, hwithin.bound, ⟨_, _, rfl, rfl, hwithin.returned⟩,
    fun n r hr => n.follows_iff hd hr⟩

/-- Words, orders and returns besides suppliers: the products stay between the clauses for the
words, and the variable of the suppliers stays behind the one of the words. -/
theorem words_and_orders_come_besides_suppliers :
    let a : Search := ⟨none, .ofList [.supplier], none, 5⟩
    let b : Search := ⟨some "lamp", .ofList [.keyword, .returned, .order, .supplier], none, 9⟩
    Schema.ofTables Schema.retailRelationships Schema.retailKeys = .ok Schema.retail
      ∧ a.Below b
      ∧ (a.body Schema.retail).vars = ["r1"]
      ∧ (b.body Schema.retail).vars = ["r0", "r1", "r2", "r4"]
      ∧ (a.body Schema.retail).clauses.Sublist (b.body Schema.retail).clauses
      ∧ ∃ fewer more, (a.plan Schema.retail).projection = .vars fewer
        ∧ (b.plan Schema.retail).projection = .vars more ∧ fewer.Sublist more := by
  intro a b
  have hasked : ∀ l, a.asked.contains l = true → b.asked.contains l = true := by
    intro l
    cases l <;> decide
  have hbelow : a.Below b := ⟨hasked, Or.inl rfl⟩
  obtain ⟨hclauses, _, _, hreturned, _⟩ := asking_for_more_only_adds Schema.ofTables_retail hbelow
  exact ⟨Schema.ofTables_retail, hbelow, by decide, by decide, hclauses, hreturned⟩

end ShopQuery
