-- Tables that make a schema. In them no two relationships share a name or a variable, each stored
-- label has one key and the virtual label has none, so looking up the key of a label is finding
-- its row. Both tables are gone through entry by entry, and the first fault is the one reported.
import Mathlib.Data.List.Induction
import Mathlib.Data.List.Nodup
import ShopQuery.Schema.Basic

namespace ShopQuery

/-! ## Rows -/

theorem mem_of_lookup {keys : List (Label × String)} {l : Label} {k : String}
    (h : keys.lookup l = some k) : (l, k) ∈ keys := by
  induction keys with
  | nil => cases h
  | cons row rest ih =>
    obtain ⟨m, key⟩ := row
    rw [List.lookup_cons] at h
    by_cases hm : l = m
    · rw [beq_iff_eq.mpr hm] at h
      cases h
      rw [hm]
      exact List.mem_cons_self
    · rw [beq_false_of_ne hm] at h
      exact List.mem_cons_of_mem _ (ih h)

/-- Where no label stands twice, a row is what its label is looked up to. -/
theorem lookup_iff_mem {keys : List (Label × String)} (hk : (keys.map Prod.fst).Nodup)
    {l : Label} {k : String} : keys.lookup l = some k ↔ (l, k) ∈ keys := by
  refine ⟨mem_of_lookup, fun h => ?_⟩
  induction keys with
  | nil => cases h
  | cons row rest ih =>
    rw [List.map_cons, List.nodup_cons] at hk
    rw [List.lookup_cons]
    rcases List.mem_cons.mp h with rfl | hrest
    · rw [beq_self_eq_true]
    · have hl : l ≠ row.1 := by
        rintro rfl
        exact hk.1 (List.mem_map.mpr ⟨_, hrest, rfl⟩)
      rw [beq_false_of_ne hl]
      exact ih hk.2 hrest

namespace Schema

/-! ## Going through a table -/

/-- The first fault of a table whose entries are checked against those in front of them. -/
def firstFault? {α : Type} (check : List α → α → Option SchemaFault) :
    List α → List α → Option SchemaFault
  | _, [] => none
  | front, x :: rest => (check front x).or (firstFault? check (front ++ [x]) rest)

section FirstFault

variable {α : Type} {check : List α → α → Option SchemaFault}

theorem firstFault?_concat (front xs : List α) (x : α) :
    firstFault? check front (xs ++ [x])
      = (firstFault? check front xs).or (check (front ++ xs) x) := by
  induction xs generalizing front with
  | nil => simp [firstFault?]
  | cons y ys ih => simp [firstFault?, ih, Option.or_assoc]

/-- The fault is that of one entry, and there is none in front of it. -/
theorem firstFault?_eq_some {xs : List α} {fault : SchemaFault} :
    firstFault? check [] xs = some fault ↔ ∃ front x rest, xs = front ++ x :: rest
      ∧ firstFault? check [] front = none ∧ check front x = some fault := by
  constructor
  · intro h
    -- From the back: the last entry is at fault only if none in front of it is.
    induction xs using List.reverseRecOn with
    | nil => cases h
    | append_singleton xs x ih =>
      rw [firstFault?_concat, List.nil_append] at h
      cases hfront : firstFault? check [] xs with
      | none =>
        rw [hfront, Option.none_or] at h
        exact ⟨xs, x, [], rfl, hfront, h⟩
      | some other =>
        rw [hfront, Option.some_or] at h
        obtain ⟨front, y, rest, rfl, hnone, hy⟩ := ih (hfront.trans h)
        exact ⟨front, y, rest ++ [x], by simp, hnone, hy⟩
  · rintro ⟨front, x, rest, rfl, hnone, hx⟩
    induction rest using List.reverseRecOn with
    | nil =>
      rw [firstFault?_concat, hnone, Option.none_or, List.nil_append]
      exact hx
    | append_singleton rest y ih =>
      have hsplit : front ++ x :: (rest ++ [y]) = (front ++ x :: rest) ++ [y] := by simp
      rw [hsplit, firstFault?_concat, ih, Option.some_or]

/-- Where each entry without a fault keeps a property of the entries, there is no fault exactly
in the tables that have it. -/
theorem firstFault?_eq_none {P : List α → Prop} (hnil : P [])
    (hconcat : ∀ xs x, P (xs ++ [x]) ↔ P xs ∧ check xs x = none) {xs : List α} :
    firstFault? check [] xs = none ↔ P xs := by
  induction xs using List.reverseRecOn with
  | nil => exact iff_of_true rfl hnil
  | append_singleton xs x ih =>
    rw [firstFault?_concat, Option.or_eq_none_iff, ih, hconcat, List.nil_append]

end FirstFault

theorem nodup_map_concat {α β : Type} (f : α → β) (xs : List α) (x : α) :
    ((xs ++ [x]).map f).Nodup ↔ (xs.map f).Nodup ∧ f x ∉ xs.map f := by
  rw [List.map_append, List.map_singleton, ← List.concat_eq_append, List.nodup_concat, and_comm]

/-! ## Relationships -/

/-- No two relationships share a name or a variable. -/
structure Distinct (relationships : List Relationship) : Prop where
  names : (relationships.map (·.name)).Nodup
  vars : (relationships.map (·.var)).Nodup

/-- The fault of a relationship behind others. -/
def relationshipCheck (front : List Relationship) (r : Relationship) : Option SchemaFault :=
  if r.name ∈ front.map (·.name) then some (.repeatedName r.name)
  else if r.var ∈ front.map (·.var) then some (.repeatedVar r.var)
  else none

theorem relationshipFault?_eq (earlier rest : List Relationship) :
    relationshipFault? earlier rest = firstFault? relationshipCheck earlier.reverse rest := by
  induction rest generalizing earlier with
  | nil => rfl
  | cons r rest ih =>
    have hnames : earlier.any (·.name == r.name) = true
        ↔ r.name ∈ earlier.reverse.map (·.name) := by simp
    have hvars : earlier.any (·.var == r.var) = true
        ↔ r.var ∈ earlier.reverse.map (·.var) := by simp
    rw [relationshipFault?, firstFault?, ih, List.reverse_cons, relationshipCheck]
    simp only [hnames, hvars]
    split
    · rfl
    · split <;> rfl

theorem distinct_iff {relationships : List Relationship} :
    relationshipFault? [] relationships = none ↔ Distinct relationships := by
  rw [relationshipFault?_eq]
  refine firstFault?_eq_none ⟨List.nodup_nil, List.nodup_nil⟩ fun rs r => ?_
  have hcheck : relationshipCheck rs r = none
      ↔ r.name ∉ rs.map (·.name) ∧ r.var ∉ rs.map (·.var) := by
    unfold relationshipCheck
    by_cases hname : r.name ∈ rs.map (·.name)
    · simp [hname]
    · by_cases hvar : r.var ∈ rs.map (·.var) <;> simp [hname, hvar]
  rw [hcheck]
  constructor
  · rintro ⟨hnames, hvars⟩
    rw [nodup_map_concat] at hnames hvars
    exact ⟨⟨hnames.1, hvars.1⟩, hnames.2, hvars.2⟩
  · rintro ⟨⟨hnames, hvars⟩, hname, hvar⟩
    exact ⟨(nodup_map_concat _ _ _).mpr ⟨hnames, hname⟩, (nodup_map_concat _ _ _).mpr ⟨hvars, hvar⟩⟩

/-! ## Keys -/

/-- The rows name each stored label at most once, and the virtual label never. -/
structure Rows (keys : List (Label × String)) : Prop where
  stored : ∀ row ∈ keys, row.1.isVirtual = false
  once : (keys.map Prod.fst).Nodup

/-- The rows name each stored label once, and the virtual label never. -/
structure Keyed (keys : List (Label × String)) : Prop where
  stored : ∀ l k, (l, k) ∈ keys → l.isVirtual = false
  once : (keys.map Prod.fst).Nodup
  covered : ∀ l : Label, l.isVirtual = false → ∃ k, (l, k) ∈ keys

/-- The fault of a row behind others. -/
def rowCheck (front : List (Label × String)) (row : Label × String) : Option SchemaFault :=
  if row.1.isVirtual then some (.keyOfVirtual row.1)
  else if row.1 ∈ front.map Prod.fst then some (.repeatedKey row.1)
  else none

theorem keyFault?_eq (earlier rest : List (Label × String)) :
    keyFault? (earlier.map Prod.fst) rest = firstFault? rowCheck earlier.reverse rest := by
  induction rest generalizing earlier with
  | nil => rfl
  | cons row rest ih =>
    have hlabels : (earlier.map Prod.fst).contains row.1 = true
        ↔ row.1 ∈ earlier.reverse.map Prod.fst := by simp
    have hrest := ih (row :: earlier)
    rw [List.map_cons, List.reverse_cons] at hrest
    rw [keyFault?, firstFault?, ← hrest, rowCheck]
    simp only [hlabels]
    split
    · rfl
    · split <;> rfl

theorem rows_iff {keys : List (Label × String)} : keyFault? [] keys = none ↔ Rows keys := by
  refine (Eq.congr_left (keyFault?_eq [] keys)).trans ?_
  refine firstFault?_eq_none ⟨by simp, List.nodup_nil⟩ fun rows row => ?_
  have hcheck : rowCheck rows row = none
      ↔ row.1.isVirtual = false ∧ row.1 ∉ rows.map Prod.fst := by
    unfold rowCheck
    by_cases hvirtual : row.1.isVirtual = true
    · simp [hvirtual]
    · by_cases hlabel : row.1 ∈ rows.map Prod.fst <;> simp [hvirtual, hlabel]
  rw [hcheck]
  constructor
  · rintro ⟨hstored, honce⟩
    rw [nodup_map_concat] at honce
    exact ⟨⟨fun r hr => hstored r (List.mem_append_left _ hr), honce.1⟩,
      hstored row (List.mem_append_right _ List.mem_cons_self), honce.2⟩
  · rintro ⟨⟨hstored, honce⟩, hrow, hlabel⟩
    refine ⟨?_, (nodup_map_concat _ _ _).mpr ⟨honce, hlabel⟩⟩
    rw [List.forall_mem_append]
    exact ⟨hstored, List.forall_mem_singleton.mpr hrow⟩

theorem lookup_isNone_iff {keys : List (Label × String)} {l : Label} :
    (keys.lookup l).isNone = true ↔ l ∉ keys.map Prod.fst := by
  rw [Option.isNone_iff_eq_none, List.lookup_eq_none_iff]
  constructor
  · intro h hl
    obtain ⟨row, hrow, rfl⟩ := List.mem_map.mp hl
    simpa using h row hrow
  · intro h row hrow
    have hne : l ≠ row.1 := by
      rintro rfl
      exact h (List.mem_map_of_mem hrow)
    simpa using hne

theorem gap?_eq_none {keys : List (Label × String)} :
    gap? keys = none ↔ ∀ l : Label, l.isVirtual = false → l ∈ keys.map Prod.fst := by
  unfold gap?
  rw [Option.map_eq_none_iff, List.find?_eq_none]
  constructor
  · intro h l hl
    have hkey := h l (Label.mem_all l)
    rw [hl, Bool.not_false, Bool.true_and, lookup_isNone_iff, not_not] at hkey
    exact hkey
  · intro h l _
    rw [Bool.and_eq_true, Bool.not_eq_true', lookup_isNone_iff]
    exact fun hgap => hgap.2 (h l hgap.1)

theorem keyed_iff {keys : List (Label × String)} : Keyed keys ↔ Rows keys ∧ gap? keys = none := by
  rw [gap?_eq_none]
  constructor
  · rintro ⟨hstored, honce, hcovered⟩
    refine ⟨⟨fun row hrow => hstored row.1 row.2 hrow, honce⟩, fun l hl => ?_⟩
    obtain ⟨k, hrow⟩ := hcovered l hl
    exact List.mem_map.mpr ⟨_, hrow, rfl⟩
  · rintro ⟨⟨hstored, honce⟩, hcovered⟩
    refine ⟨fun l k hrow => hstored _ hrow, honce, fun l hl => ?_⟩
    obtain ⟨⟨m, k⟩, hrow, rfl⟩ := List.mem_map.mp (hcovered l hl)
    exact ⟨k, hrow⟩

/-! ## Schemas -/

/-- Two tables make a schema exactly if they have no fault, and then it holds them as they are. -/
theorem ofTables_eq_ok {relationships : List Relationship} {keys : List (Label × String)}
    {s : Schema} : ofTables relationships keys = .ok s ↔
      s = ⟨relationships, keys⟩ ∧ Distinct relationships ∧ Keyed keys := by
  have hfault : fault? relationships keys = none ↔ Distinct relationships ∧ Keyed keys := by
    unfold fault?
    rw [Option.or_eq_none_iff, Option.or_eq_none_iff, distinct_iff, rows_iff, keyed_iff]
  unfold ofTables
  rw [← hfault]
  cases fault? relationships keys with
  | none => simp [eq_comm]
  | some fault => simp

/-- A schema holds the tables that it was made from, and its keys are complete. -/
theorem of_ofTables {relationships : List Relationship} {keys : List (Label × String)} {s : Schema}
    (h : ofTables relationships keys = .ok s) :
    s.relationships = relationships ∧ s.keys = keys ∧ Keyed s.keys := by
  obtain ⟨rfl, _, hkeyed⟩ := ofTables_eq_ok.mp h
  exact ⟨rfl, rfl, hkeyed⟩

end Schema

end ShopQuery
