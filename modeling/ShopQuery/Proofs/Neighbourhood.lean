-- What an inspection gives, over any schema that tables make: the reason why nothing can be
-- inspected, or the plan that finds one node by its key and follows the stored relationships
-- at its label.
import Mathlib.Data.List.Forall2
import ShopQuery.Inspection.Plan
import ShopQuery.Proofs.Numerals
import ShopQuery.Proofs.Tables
import ShopQuery.Schema.Retail

namespace ShopQuery

/-! ## Spellings -/

namespace Label

/-- The text is the name of the label, in letters of either case. -/
def SpelledBy (l : Label) (spelling : String) : Prop :=
  List.Forall₂ (fun c d => c.toLower = d.toLower) l.name.toList spelling.toList

theorem spelledBy_iff {l : Label} {spelling : String} :
    l.SpelledBy spelling ↔ foldCase l.name = foldCase spelling := by
  unfold SpelledBy foldCase
  rw [← List.forall₂_eq_eq_eq, List.forall₂_map_left_iff, List.forall₂_map_right_iff]

instance (l : Label) (spelling : String) : Decidable (l.SpelledBy spelling) :=
  decidable_of_iff _ spelledBy_iff.symm

/-- No text spells two labels. -/
theorem SpelledBy.unique {l m : Label} {spelling : String} (hl : l.SpelledBy spelling)
    (hm : m.SpelledBy spelling) : l = m := by
  have hnames : ∀ l ∈ all, ∀ m ∈ all, foldCase l.name = foldCase m.name → l = m := by decide
  rw [spelledBy_iff] at hl hm
  exact hnames l (mem_all l) m (mem_all m) (hl.trans hm.symm)

theorem ofSpelling?_iff {l : Label} {spelling : String} :
    ofSpelling? spelling = some l ↔ l.SpelledBy spelling := by
  unfold ofSpelling?
  constructor
  · intro h
    rw [spelledBy_iff]
    simpa using List.find?_some h
  · intro h
    cases hfound : all.find? fun m => foldCase m.name == foldCase spelling with
    | none =>
      have hl := List.find?_eq_none.mp hfound l (mem_all l)
      exact absurd (beq_iff_eq.mpr (spelledBy_iff.mp h)) hl
    | some m =>
      have hm : m.SpelledBy spelling := by
        rw [spelledBy_iff]
        simpa using List.find?_some hfound
      rw [hm.unique h]

end Label

/-! ## Labels with a key -/

namespace Schema

variable {s : Schema}

theorem keyed?_iff (hk : Keyed s.keys) {spelling : String} {l : Label} {k : String} :
    s.keyed? spelling = some (l, k) ↔ l.SpelledBy spelling ∧ (l, k) ∈ s.keys := by
  unfold keyed? key?
  rw [Option.bind_eq_some_iff, ← Label.ofSpelling?_iff, ← lookup_iff_mem hk.once]
  simp

theorem keyed?_eq_none_iff (hk : Keyed s.keys) {spelling : String} :
    s.keyed? spelling = none ↔ ∀ l : Label, l.isVirtual = false → ¬ l.SpelledBy spelling := by
  constructor
  · intro h l hl hspelled
    obtain ⟨k, hrow⟩ := hk.covered l hl
    rw [(keyed?_iff hk).mpr ⟨hspelled, hrow⟩] at h
    cases h
  · intro h
    cases hfound : s.keyed? spelling with
    | none => rfl
    | some found =>
      obtain ⟨hspelled, hrow⟩ := (keyed?_iff hk).mp hfound
      exact absurd hspelled (h found.1 (hk.stored _ _ hrow))

end Schema

/-! ## The plan of an inspection -/

/-- The relationships of a table that are stored and have an end at the label. -/
def followed (relationships : List Relationship) (l : Label) : List Relationship :=
  relationships.filter fun r => r.isVirtual = false ∧ (r.source = l ∨ r.target = l)

/-- The plan looks the node up by its key and follows its relationships, in the order of the
table. All that is bound is returned as it comes, and the limit is the parameter of this name
if that writes a positive number of 64 bits. -/
structure Finds (relationships : List Relationship) (l : Label) (k value : String)
    (params : Params) (plan : Plan) : Prop where
  clauses : plan.body.clauses = .lookup l k (.ofText value)
    :: (followed relationships l).map fun r =>
      .traversal ⟨r.var, r.name, r.source, r.target, .optional⟩
  bound : ∀ m, plan.body.binds m = true ↔
    m = l ∨ ∃ r ∈ followed relationships l, m = r.source ∨ m = r.target
  aggregation : plan.aggregation = none
  projection : plan.projection = .all
  orderBy : plan.orderBy = none
  limit : ∀ n, plan.limit.map UInt64.toNat = some n ↔ ∃ text, params.get? "limit" = some text
    ∧ Text.WritesUnsigned (Text.trim text).toList n ∧ 0 < n ∧ n < 2 ^ 64

namespace Inspection

theorem positive_iff (o : Option UInt64) (n : Nat) :
    (o.filter (0 < ·)).map UInt64.toNat = some n ↔ o.map UInt64.toNat = some n ∧ 0 < n := by
  rcases o with _ | w
  · simp
  · rw [Option.filter_some]
    simp only [decide_eq_true_eq, UInt64.lt_iff_toNat_lt, Option.map_some, Option.some.injEq]
    split
    case isTrue hpos =>
      rw [Option.map_some, Option.some.injEq]
      exact (and_iff_left_of_imp fun hw => hw ▸ hpos).symm
    case isFalse hzero =>
      rw [Option.map_none]
      constructor
      · intro hn
        cases hn
      · rintro ⟨rfl, hpos⟩
        exact absurd hpos hzero

theorem limit_ofParams (spelling : String) (params : Params) (n : Nat) :
    (ofParams spelling params).limit.map UInt64.toNat = some n ↔
      ∃ text, params.get? "limit" = some text
        ∧ Text.WritesUnsigned (Text.trim text).toList n ∧ 0 < n ∧ n < 2 ^ 64 := by
  unfold ofParams
  rw [positive_iff]
  rcases params.get? "limit" with _ | text
  · simp
  · rw [Option.map_some, Option.bind_some, Text.unsigned64?_iff, and_assoc]
    simp [and_comm]

theorem neighbours_eq (s : Schema) (l : Label) : s.neighbours l = followed s.relationships l := by
  unfold Schema.neighbours followed Relationship.hasEnd
  apply List.filter_congr
  intro r _
  rw [Bool.eq_iff_iff]
  simp

theorem clauses_body (s : Schema) (l : Label) (k value : String) : (body s l k value).clauses
    = .lookup l k (.ofText value) :: (followed s.relationships l).map fun r =>
      .traversal ⟨r.var, r.name, r.source, r.target, .optional⟩ := by
  unfold body
  rw [Body.clauses_ofList, neighbours_eq]
  congr 1
  apply List.map_congr_left
  intro r hr
  have hstored : r.isVirtual = false := (of_decide_eq_true (List.mem_filter.mp hr).2).1
  unfold Relationship.traversal
  rw [hstored]
  rfl

theorem vars_body (s : Schema) (l : Label) (k value : String) :
    (body s l k value).vars = (followed s.relationships l).map (·.var) := by
  unfold body
  rw [Body.vars_ofList, List.flatMap_cons, List.flatMap_map, List.map_eq_flatMap, neighbours_eq]
  rfl

theorem binds_body (s : Schema) (l : Label) (k value : String) (m : Label) :
    (body s l k value).binds m = true ↔
      m = l ∨ ∃ r ∈ followed s.relationships l, m = r.source ∨ m = r.target := by
  unfold body
  rw [Body.binds_ofList, List.contains_iff_mem, List.flatMap_cons, List.flatMap_map,
    List.mem_append, List.mem_flatMap, neighbours_eq]
  simp [Clause.labels, Relationship.traversal]

theorem finds_body (s : Schema) (l : Label) (k value spelling : String) (params : Params) :
    Finds s.relationships l k value params
      { body := body s l k value, limit := (ofParams spelling params).limit } where
  clauses := clauses_body s l k value
  bound := binds_body s l k value
  aggregation := rfl
  projection := rfl
  orderBy := rfl
  limit := limit_ofParams spelling params

end Inspection

namespace Schema

variable {s : Schema} {spelling : String} {params : Params}

theorem inspect_of_none (h : s.keyed? spelling = none) :
    s.inspect spelling params = .error (.unknownLabel spelling) := by
  unfold inspect Inspection.plan Inspection.ofParams
  rw [h]

theorem inspect_of_some {l : Label} {k : String} (h : s.keyed? spelling = some (l, k)) :
    s.inspect spelling params = match params.get? k with
      | none => .error (.missingKey spelling k)
      | some value => .ok { body := Inspection.body s l k value
                            limit := (Inspection.ofParams spelling params).limit } := by
  cases hvalue : params.get? k with
  | none => simp [inspect, Inspection.plan, Inspection.ofParams, h, hvalue]
  | some value => simp [inspect, Inspection.plan, Inspection.ofParams, h, hvalue]

/-- An inspection succeeds only where a label is spelled and its key has a value. -/
theorem found_of_inspect {plan : Plan} (h : s.inspect spelling params = .ok plan) :
    ∃ l k value, s.keyed? spelling = some (l, k) ∧ params.get? k = some value
      ∧ plan = { body := Inspection.body s l k value
                 limit := (Inspection.ofParams spelling params).limit } := by
  cases hfound : s.keyed? spelling with
  | none =>
    rw [inspect_of_none hfound] at h
    cases h
  | some found =>
    rw [inspect_of_some hfound] at h
    cases hvalue : params.get? found.2 with
    | none => simp [hvalue] at h
    | some value =>
      rw [hvalue] at h
      exact ⟨_, _, value, rfl, hvalue, (Except.ok.inj h).symm⟩

end Schema

/-! ## The law -/

/-- A text that spells no stored label is refused, whatever the parameters. One that spells a
label is refused exactly where the parameters lack the one key of the label, and otherwise
gives the plan that finds the node. Either fault names the label as it was spelled. -/
theorem an_inspection_finds_its_node_or_says_why {relationships : List Relationship}
    {keys : List (Label × String)} {s : Schema} (h : Schema.ofTables relationships keys = .ok s)
    (spelling : String) (params : Params) :
    (s.inspect spelling params = .error (.unknownLabel spelling) ↔
      ∀ l : Label, l.isVirtual = false → ¬ l.SpelledBy spelling)
    ∧ ∀ l : Label, l.isVirtual = false → l.SpelledBy spelling →
      ∃ k, (∀ key, (l, key) ∈ keys ↔ key = k)
        ∧ (s.inspect spelling params = .error (.missingKey spelling k) ↔ params.get? k = none)
        ∧ ∀ value, params.get? k = some value →
          ∃ plan, s.inspect spelling params = .ok plan
            ∧ Finds relationships l k value params plan := by
  obtain ⟨rfl, rfl, hk⟩ := Schema.of_ofTables h
  constructor
  · rw [← Schema.keyed?_eq_none_iff hk]
    refine ⟨fun hfault => ?_, Schema.inspect_of_none⟩
    cases hfound : s.keyed? spelling with
    | none => rfl
    | some found =>
      rw [Schema.inspect_of_some hfound] at hfault
      split at hfault <;> cases hfault
  · intro l hl hspelled
    obtain ⟨k, hrow⟩ := hk.covered l hl
    have hfound := (Schema.keyed?_iff hk).mpr ⟨hspelled, hrow⟩
    refine ⟨k, ?_, ?_, ?_⟩
    · intro key
      rw [← lookup_iff_mem hk.once, (lookup_iff_mem hk.once).mpr hrow, Option.some.injEq]
      exact eq_comm
    · rw [Schema.inspect_of_some hfound]
      cases params.get? k <;> simp
    · intro value hvalue
      rw [Schema.inspect_of_some hfound, hvalue]
      exact ⟨_, rfl, Inspection.finds_body _ l k value spelling params⟩

/-- An order is found under a name in mixed letters, and a limit may have a sign and zeros. -/
theorem an_order_is_found_by_its_key :
    Schema.ofTables Schema.retailRelationships Schema.retailKeys = .ok Schema.retail
    ∧ ∃ plan, Schema.retail.inspect "oRDER" ⟨[("limit", " +05"), ("rs_id", "o'1")]⟩ = .ok plan
      ∧ Finds Schema.retailRelationships .order "rs_id" "o'1"
        ⟨[("limit", " +05"), ("rs_id", "o'1")]⟩ plan := by
  refine ⟨Schema.ofTables_retail, ?_⟩
  obtain ⟨k, hkey, _, hplan⟩ := (an_inspection_finds_its_node_or_says_why Schema.ofTables_retail
    "oRDER" ⟨[("limit", " +05"), ("rs_id", "o'1")]⟩).2 .order rfl (by decide)
  obtain rfl := (hkey "rs_id").mp (by decide)
  exact hplan "o'1" rfl

end ShopQuery
