-- The order of the rows in both tables of a schema. Rows in another order make a schema too,
-- and its plans differ from those of the first in the order of their steps at most.
import ShopQuery.Proofs.Neighbourhood
import ShopQuery.Proofs.ReturnOrder
import ShopQuery.Search.Plan

namespace ShopQuery

/-! ## Plans that differ in the order of their steps -/

/-- The clauses that are no steps stand at the same places, and the steps are the same ones. -/
structure Body.Rearranged (b b' : Body) : Prop where
  others : ∀ (i : ℕ) (c : Clause), c.step? = none →
    (b.clauses[i]? = some c ↔ b'.clauses[i]? = some c)
  steps : (steps b.clauses).Perm (steps b'.clauses)
  bound : b.bound = b'.bound

/-- Only the steps of the bodies may stand in another order. -/
structure Plan.Rearranged (p p' : Plan) : Prop where
  body : p.body.Rearranged p'.body
  aggregation : p.aggregation = p'.aggregation
  projection : p.projection = p'.projection
  orderBy : p.orderBy = p'.orderBy
  limit : p.limit = p'.limit

/-- Both inspections are refused for the same reason, or both find the same node. -/
inductive SameInspection : Except InspectionFault Plan → Except InspectionFault Plan → Prop
  | refused (fault : InspectionFault) : SameInspection (.error fault) (.error fault)
  | found {p p' : Plan} (h : p.Rearranged p') : SameInspection (.ok p) (.ok p')

/-! ## The steps of a plan stand last -/

/-- The clauses that follow some relationships where they can. -/
def optionalSteps (rs : List Relationship) : List Clause :=
  rs.map fun r => .traversal (r.traversal .optional)

theorem steps_append (front : List Clause) (rs : List Relationship) :
    steps (front ++ optionalSteps rs) = steps front ++ rs.map (·.traversal .optional) := by
  unfold steps optionalSteps
  rw [List.filterMap_append, List.filterMap_map]
  congr 1
  exact congrFun (List.filterMap_eq_map (f := fun r : Relationship => r.traversal .optional)) rs

/-- A clause that is no step stands in front of the steps, at the place that it has without them. -/
theorem getElem?_of_no_step {front : List Clause} {rs : List Relationship} {i : ℕ} {c : Clause}
    (hc : c.step? = none) :
    (front ++ optionalSteps rs)[i]? = some c ↔ front[i]? = some c := by
  by_cases hi : i < front.length
  · rw [List.getElem?_append_left hi]
  · rw [List.getElem?_append_right (by omega), List.getElem?_eq_none (by omega : front.length ≤ i)]
    refine iff_of_false ?_ (by simp)
    intro hstep
    obtain ⟨r, _, rfl⟩ := List.mem_map.mp (List.mem_of_getElem? hstep)
    cases hc

theorem Body.rearranged_ofList (front : List Clause) {rs rs' : List Relationship}
    (h : rs.Perm rs') :
    (ofList (front ++ optionalSteps rs)).Rearranged (ofList (front ++ optionalSteps rs')) where
  others i c hc := by
    rw [clauses_ofList, clauses_ofList, getElem?_of_no_step hc, getElem?_of_no_step hc]
  steps := by
    rw [clauses_ofList, clauses_ofList, steps_append, steps_append]
    exact (h.map _).append_left _
  bound := bound_ofList_of_perm ((h.map _).append_left _)

/-! ## Schemas with the same rows -/

namespace Schema

theorem Distinct.of_perm {rs rs' : List Relationship} (hd : Distinct rs) (h : rs.Perm rs') :
    Distinct rs' where
  names := (h.map _).nodup_iff.mp hd.names
  vars := (h.map _).nodup_iff.mp hd.vars

theorem Keyed.of_perm {ks ks' : List (Label × String)} (hk : Keyed ks) (h : ks.Perm ks') :
    Keyed ks' where
  stored l k hrow := hk.stored l k (h.mem_iff.mpr hrow)
  once := (h.map _).nodup_iff.mp hk.once
  covered l hl := by
    obtain ⟨k, hrow⟩ := hk.covered l hl
    exact ⟨k, h.mem_iff.mp hrow⟩

/-- The schemas have the same rows in both tables, and their keys are complete. -/
structure SameRows (s s' : Schema) : Prop where
  relationships : s.relationships.Perm s'.relationships
  keys : s.keys.Perm s'.keys
  keyed : Keyed s.keys

variable {s s' : Schema}

theorem SameRows.of_ofTables {rs rs' : List Relationship} {ks ks' : List (Label × String)}
    (hr : rs.Perm rs') (hk : ks.Perm ks') (h : ofTables rs ks = .ok s) :
    ∃ s', ofTables rs' ks' = .ok s' ∧ s.SameRows s' := by
  obtain ⟨rfl, hdistinct, hkeyed⟩ := ofTables_eq_ok.mp h
  exact ⟨⟨rs', ks'⟩, ofTables_eq_ok.mpr ⟨rfl, hdistinct.of_perm hr, hkeyed.of_perm hk⟩,
    hr, hk, hkeyed⟩

namespace SameRows

variable (h : s.SameRows s')
include h

theorem keyed?_eq (spelling : String) : s.keyed? spelling = s'.keyed? spelling := by
  apply Option.ext
  rintro ⟨l, k⟩
  rw [keyed?_iff h.keyed, keyed?_iff (h.keyed.of_perm h.keys), h.keys.mem_iff]

/-- A search is planned the same way, but for the order of its steps. -/
theorem rearranged_plan (n : Search) : (n.plan s).Rearranged (n.plan s') := by
  have hsteps : (s.triggered n.asked).Perm (s'.triggered n.asked) := h.relationships.filter _
  have hreturned : (n.body s).returned n = (n.body s').returned n :=
    Body.returned_ofList_of_perm ((hsteps.map _).append_left _) n
  exact
    { body := Body.rearranged_ofList (Search.rootClauses n.keyword) hsteps
      aggregation := congrArg Returned.aggregation hreturned
      projection := congrArg Returned.projection hreturned
      orderBy := rfl
      limit := rfl }

theorem sameInspection (spelling : String) (params : Params) :
    SameInspection (s.inspect spelling params) (s'.inspect spelling params) := by
  cases hfound : s.keyed? spelling with
  | none =>
    rw [inspect_of_none hfound, inspect_of_none ((h.keyed?_eq spelling).symm.trans hfound)]
    exact .refused _
  | some found =>
    rw [inspect_of_some hfound, inspect_of_some ((h.keyed?_eq spelling).symm.trans hfound)]
    cases params.get? found.2 with
    | none => exact .refused _
    | some value =>
      have hsteps : (s.neighbours found.1).Perm (s'.neighbours found.1) :=
        h.relationships.filter _
      exact .found
        { body := Body.rearranged_ofList [.lookup found.1 found.2 (.ofText value)] hsteps
          aggregation := rfl
          projection := rfl
          orderBy := rfl
          limit := rfl }

end SameRows

end Schema

/-! ## The law -/

/-- Tables that make a schema still make one when their rows change places. Each search then has
the same plan and each inspection the same outcome, but for the order of the steps: the other
clauses keep their places, and what is bound, returned and counted is the same. -/
theorem rows_in_another_order_rearrange_steps_only {rs rs' : List Relationship}
    {ks ks' : List (Label × String)} {s : Schema} (hr : rs.Perm rs') (hk : ks.Perm ks')
    (h : Schema.ofTables rs ks = .ok s) :
    ∃ s', Schema.ofTables rs' ks' = .ok s'
      ∧ (∀ n : Search, (n.plan s).Rearranged (n.plan s'))
      ∧ ∀ spelling params,
        SameInspection (s.inspect spelling params) (s'.inspect spelling params) := by
  obtain ⟨s', hs', hrows⟩ := Schema.SameRows.of_ofTables hr hk h
  exact ⟨s', hs', hrows.rearranged_plan, hrows.sameInspection⟩

/-- The retail tables may be read from the back. -/
theorem the_retail_tables_may_be_turned_around :
    Schema.retailRelationships.Perm Schema.retailRelationships.reverse
    ∧ Schema.retailKeys.Perm Schema.retailKeys.reverse
    ∧ Schema.ofTables Schema.retailRelationships Schema.retailKeys = .ok Schema.retail
    ∧ ∃ s', Schema.ofTables Schema.retailRelationships.reverse Schema.retailKeys.reverse = .ok s'
      ∧ (∀ n : Search, (n.plan Schema.retail).Rearranged (n.plan s'))
      ∧ ∀ spelling params, SameInspection (Schema.retail.inspect spelling params)
        (s'.inspect spelling params) :=
  ⟨(List.reverse_perm _).symm, (List.reverse_perm _).symm, Schema.ofTables_retail,
    rows_in_another_order_rearrange_steps_only (List.reverse_perm _).symm
      (List.reverse_perm _).symm Schema.ofTables_retail⟩

example :
    let n : Search := ⟨none, .ofList [.supplier, .storage], none, 1⟩
    let turned : Schema := ⟨Schema.retailRelationships.reverse, Schema.retailKeys.reverse⟩
    (n.body Schema.retail).vars = ["r1", "r6"] ∧ (n.body turned).vars = ["r6", "r1"] := by
  decide

end ShopQuery
