-- Which two tables make a schema, and why the others do not. A table may have many faults at once.
-- The relationships are gone through before the keys and a label without a key is looked for
-- last, so one fault is always the first, and that one is reported.
import ShopQuery.Proofs.Neighbourhood

namespace ShopQuery

namespace Schema

/-! ## The first fault -/

/-- The fault that two tables are refused for: what stands in front of it is in order, and the
table before has no fault at all. -/
inductive FirstFault (relationships : List Relationship) (keys : List (Label × String)) :
    SchemaFault → Prop
  | name {front rest : List Relationship} {r : Relationship}
    (here : relationships = front ++ r :: rest) (before : Distinct front)
    (again : r.name ∈ front.map (·.name)) :
    FirstFault relationships keys (.repeatedName r.name)
  | var {front rest : List Relationship} {r : Relationship}
    (here : relationships = front ++ r :: rest) (before : Distinct front)
    (name : r.name ∉ front.map (·.name)) (again : r.var ∈ front.map (·.var)) :
    FirstFault relationships keys (.repeatedVar r.var)
  | made {front rest : List (Label × String)} {l : Label} {k : String}
    (distinct : Distinct relationships) (here : keys = front ++ (l, k) :: rest)
    (before : Rows front) (isVirtual : l.isVirtual = true) :
    FirstFault relationships keys (.keyOfVirtual l)
  | key {front rest : List (Label × String)} {l : Label} {k : String}
    (distinct : Distinct relationships) (here : keys = front ++ (l, k) :: rest)
    (before : Rows front) (stored : l.isVirtual = false) (again : l ∈ front.map Prod.fst) :
    FirstFault relationships keys (.repeatedKey l)
  | gap {front rest : List Label} {l : Label} (distinct : Distinct relationships)
    (rows : Rows keys) (here : Label.all = front ++ l :: rest)
    (before : ∀ m ∈ front, m.isVirtual = false → m ∈ keys.map Prod.fst)
    (stored : l.isVirtual = false) (missing : l ∉ keys.map Prod.fst) :
    FirstFault relationships keys (.missingKey l)

/-! ## The three loops -/

variable {relationships : List Relationship} {keys : List (Label × String)} {fault : SchemaFault}

theorem relationshipFault?_eq_some : relationshipFault? [] relationships = some fault ↔
    ∃ front r rest, relationships = front ++ r :: rest ∧ Distinct front
      ∧ relationshipCheck front r = some fault := by
  have hfront : ∀ front, firstFault? relationshipCheck [] front = none ↔ Distinct front := by
    intro front
    rw [← distinct_iff, relationshipFault?_eq]
    rfl
  rw [relationshipFault?_eq, List.reverse_nil, firstFault?_eq_some]
  simp only [hfront]

theorem keyFault?_eq_some : keyFault? [] keys = some fault ↔
    ∃ front row rest, keys = front ++ row :: rest ∧ Rows front
      ∧ rowCheck front row = some fault := by
  have hloop : ∀ rows, keyFault? [] rows = firstFault? rowCheck [] rows := keyFault?_eq []
  have hfront : ∀ front, firstFault? rowCheck [] front = none ↔ Rows front := by
    intro front
    rw [← rows_iff, hloop]
  rw [hloop, firstFault?_eq_some]
  simp only [hfront]

theorem gap?_eq_some : gap? keys = some fault ↔
    ∃ front l rest, Label.all = front ++ l :: rest
      ∧ (∀ m ∈ front, m.isVirtual = false → m ∈ keys.map Prod.fst)
      ∧ l.isVirtual = false ∧ l ∉ keys.map Prod.fst ∧ fault = .missingKey l := by
  have hkey : ∀ l : Label, (!l.isVirtual && (keys.lookup l).isNone) = true
      ↔ l.isVirtual = false ∧ l ∉ keys.map Prod.fst := by
    intro l
    rw [Bool.and_eq_true, Bool.not_eq_true', lookup_isNone_iff]
  have hcovered : ∀ l : Label, (!(!l.isVirtual && (keys.lookup l).isNone)) = true
      ↔ (l.isVirtual = false → l ∈ keys.map Prod.fst) := by
    intro l
    rw [Bool.not_eq_true', ← Bool.not_eq_true, hkey, not_and, not_not]
  unfold gap?
  rw [Option.map_eq_some_iff]
  simp only [List.find?_eq_some_iff_append, hkey, hcovered]
  constructor
  · rintro ⟨l, ⟨⟨hstored, hmissing⟩, front, rest, hall, hfront⟩, rfl⟩
    exact ⟨front, l, rest, hall, hfront, hstored, hmissing, rfl⟩
  · rintro ⟨front, l, rest, hall, hfront, hstored, hmissing, rfl⟩
    exact ⟨l, ⟨⟨hstored, hmissing⟩, front, rest, hall, hfront⟩, rfl⟩

/-! ## The fault of two tables -/

theorem firstFault_of_relationships (h : relationshipFault? [] relationships = some fault) :
    FirstFault relationships keys fault := by
  obtain ⟨front, r, rest, hhere, hbefore, hcheck⟩ := relationshipFault?_eq_some.mp h
  unfold relationshipCheck at hcheck
  by_cases hname : r.name ∈ front.map (·.name)
  · rw [if_pos hname] at hcheck
    cases hcheck
    exact .name hhere hbefore hname
  · rw [if_neg hname] at hcheck
    by_cases hvar : r.var ∈ front.map (·.var)
    · rw [if_pos hvar] at hcheck
      cases hcheck
      exact .var hhere hbefore hname hvar
    · rw [if_neg hvar] at hcheck
      cases hcheck

theorem firstFault_of_keys (hd : Distinct relationships) (h : keyFault? [] keys = some fault) :
    FirstFault relationships keys fault := by
  obtain ⟨front, ⟨l, k⟩, rest, hhere, hbefore, hcheck⟩ := keyFault?_eq_some.mp h
  unfold rowCheck at hcheck
  by_cases hvirtual : l.isVirtual = true
  · rw [if_pos hvirtual] at hcheck
    cases hcheck
    exact .made hd hhere hbefore hvirtual
  · rw [if_neg hvirtual] at hcheck
    by_cases hlabel : l ∈ front.map Prod.fst
    · rw [if_pos hlabel] at hcheck
      cases hcheck
      exact .key hd hhere hbefore (Bool.eq_false_iff.mpr hvirtual) hlabel
    · rw [if_neg hlabel] at hcheck
      cases hcheck

theorem firstFault_of_gap (hd : Distinct relationships) (hr : Rows keys)
    (h : gap? keys = some fault) : FirstFault relationships keys fault := by
  obtain ⟨front, l, rest, hhere, hbefore, hstored, hmissing, rfl⟩ := gap?_eq_some.mp h
  exact .gap hd hr hhere hbefore hstored hmissing

theorem fault?_eq_some : fault? relationships keys = some fault ↔
    FirstFault relationships keys fault := by
  unfold fault?
  rw [Option.or_eq_some_iff, Option.or_eq_some_iff, distinct_iff, rows_iff]
  constructor
  · rintro (h | ⟨hd, h | ⟨hr, h⟩⟩)
    · exact firstFault_of_relationships h
    · exact firstFault_of_keys hd h
    · exact firstFault_of_gap hd hr h
  · intro h
    cases h with
    | name here before again =>
      exact Or.inl (relationshipFault?_eq_some.mpr ⟨_, _, _, here, before, if_pos again⟩)
    | var here before name again =>
      refine Or.inl (relationshipFault?_eq_some.mpr ⟨_, _, _, here, before, ?_⟩)
      exact (if_neg name).trans (if_pos again)
    | made distinct here before isVirtual =>
      exact Or.inr ⟨distinct, Or.inl
        (keyFault?_eq_some.mpr ⟨_, _, _, here, before, if_pos isVirtual⟩)⟩
    | key distinct here before stored again =>
      refine Or.inr ⟨distinct, Or.inl (keyFault?_eq_some.mpr ⟨_, _, _, here, before, ?_⟩)⟩
      exact (if_neg (by simp [stored])).trans (if_pos again)
    | gap distinct rows here before stored missing =>
      exact Or.inr ⟨distinct, Or.inr ⟨rows,
        gap?_eq_some.mpr ⟨_, _, _, here, before, stored, missing, rfl⟩⟩⟩

theorem ofTables_eq_error : ofTables relationships keys = .error fault ↔
    FirstFault relationships keys fault := by
  rw [← fault?_eq_some]
  unfold ofTables
  cases fault? relationships keys with
  | none => simp
  | some other => simp

/-! ## The law -/

/-- Two tables make a schema if and only if no two relationships share a name or a variable, and
the rows name each stored label once and the virtual label never. The schema has the relationships
in their order, the key of a label is the one in its row, and each spelling of a stored label leads
to it. All other tables are refused for the first of their faults. -/
theorem two_tables_make_a_schema_or_show_their_first_fault (relationships : List Relationship)
    (keys : List (Label × String)) :
    ((∃ s, ofTables relationships keys = .ok s) ↔ Distinct relationships ∧ Keyed keys)
    ∧ (∀ s, ofTables relationships keys = .ok s →
      s.relationships = relationships
      ∧ (∀ l k, s.key? l = some k ↔ (l, k) ∈ keys)
      ∧ ∀ l : Label, l.isVirtual = false → ∃ k, (l, k) ∈ keys
        ∧ ∀ spelling, l.SpelledBy spelling → s.keyed? spelling = some (l, k))
    ∧ ∀ fault, ofTables relationships keys = .error fault ↔
      FirstFault relationships keys fault := by
  refine ⟨?_, ?_, fun fault => ofTables_eq_error⟩
  · simp only [ofTables_eq_ok, exists_eq_left]
  · intro s h
    obtain ⟨rfl, _, hkeyed⟩ := ofTables_eq_ok.mp h
    refine ⟨rfl, fun l k => lookup_iff_mem hkeyed.once, fun l hl => ?_⟩
    obtain ⟨k, hrow⟩ := hkeyed.covered l hl
    exact ⟨k, hrow, fun spelling hspelled => (keyed?_iff hkeyed).mpr ⟨hspelled, hrow⟩⟩

/-- The retail tables make a schema, in which an order is found in mixed letters. -/
theorem retail_tables_lead_to_orders :
    ofTables retailRelationships retailKeys = .ok retail
      ∧ ∃ k, (Label.order, k) ∈ retailKeys ∧ retail.keyed? "oRdEr" = some (.order, k) := by
  obtain ⟨_, hschema, _⟩ :=
    two_tables_make_a_schema_or_show_their_first_fault retailRelationships retailKeys
  obtain ⟨k, hrow, hspelled⟩ := (hschema retail ofTables_retail).2.2 .order rfl
  exact ⟨ofTables_retail, k, hrow, hspelled "oRdEr" (by decide)⟩

end Schema

end ShopQuery
