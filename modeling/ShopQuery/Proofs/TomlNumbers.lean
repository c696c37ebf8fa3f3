-- The numbers that stand in a document. A statement adds the values that it gives and changes no
-- other, so a document has room for its numbers exactly when the value of each statement has.
import ShopQuery.Proofs.FiniteNumbers
import ShopQuery.Proofs.TomlTables
import ShopQuery.Proofs.TomlValues
import ShopQuery.Settings.File

namespace ShopQuery.Toml

/-! ## What a node holds -/

/-- A value without parts that stands somewhere in a node. -/
inductive Node.Holds : Node → Scalar → Prop
  | scalar (v : Scalar) : Holds (.scalar v) v
  | array {items : List Node} {n : Node} {v : Scalar} (hmem : n ∈ items) (h : Holds n v) :
    Holds (.array items) v
  | table {origin : Origin} {es : Entries} {e : String × Node} {v : Scalar} (hmem : e ∈ es)
      (h : Holds e.2 v) : Holds (.table origin es) v
  | tables {elements : List Entries} {es : Entries} {e : String × Node} {v : Scalar}
      (helement : es ∈ elements) (hmem : e ∈ es) (h : Holds e.2 v) : Holds (.tables elements) v

/-- A value without parts that stands somewhere in a table. -/
def Entries.Hold (es : Entries) (v : Scalar) : Prop := ∃ e ∈ es, e.2.Holds v

theorem Node.holds_scalar {v w : Scalar} : (scalar v).Holds w ↔ w = v := by
  constructor
  · rintro ⟨⟩
    rfl
  · rintro rfl
    exact .scalar w

theorem Node.holds_table {origin : Origin} {es : Entries} {v : Scalar} :
    (table origin es).Holds v ↔ es.Hold v := by
  constructor
  · rintro ⟨⟩
    exact ⟨_, ‹_›, ‹_›⟩
  · exact fun ⟨_, hmem, h⟩ => .table hmem h

theorem Node.holds_tables {elements : List Entries} {v : Scalar} :
    (tables elements).Holds v ↔ ∃ es ∈ elements, es.Hold v := by
  constructor
  · rintro ⟨⟩
    exact ⟨_, ‹_›, _, ‹_›, ‹_›⟩
  · exact fun ⟨_, helement, _, hmem, h⟩ => .tables helement hmem h

theorem Entries.hold_cons {e : String × Node} {es : Entries} {v : Scalar} :
    Entries.Hold (e :: es) v ↔ e.2.Holds v ∨ es.Hold v := by
  simp [Entries.Hold]

/-! ## Readable nodes -/

theorem itemsReadable_iff {items : List Node} :
    itemsReadable items = true ↔ ∀ n ∈ items, n.isReadable = true := by
  induction items with
  | nil => simp [itemsReadable]
  | cons n items ih => simp [itemsReadable, ih]

theorem entriesReadable_iff {es : Entries} :
    entriesReadable es = true ↔ ∀ e ∈ es, e.2.isReadable = true := by
  induction es with
  | nil => simp [entriesReadable]
  | cons e es ih => simp [entriesReadable, ih]

theorem elementsReadable_iff {elements : List Entries} :
    elementsReadable elements = true ↔ ∀ es ∈ elements, ∀ e ∈ es, e.2.isReadable = true := by
  induction elements with
  | nil => simp [elementsReadable]
  | cons es elements ih => simp [elementsReadable, ih, entriesReadable_iff]

/-- A node is readable if what it holds is. -/
theorem Node.isReadable_of_holds {n : Node} {v : Scalar} (h : n.Holds v)
    (hread : n.isReadable = true) : v.isReadable = true := by
  induction h with
  | scalar v => exact hread
  | array hmem _ ih => exact ih (itemsReadable_iff.mp hread _ hmem)
  | table hmem _ ih => exact ih (entriesReadable_iff.mp hread _ hmem)
  | tables helement hmem _ ih => exact ih (elementsReadable_iff.mp hread _ helement _ hmem)

/-- A node is readable if all that it holds is. -/
theorem Node.isReadable_of_forall (n : Node) (h : ∀ v, n.Holds v → v.isReadable = true) :
    n.isReadable = true := by
  match n with
  | .scalar v => exact h v (.scalar v)
  | .array items =>
    exact itemsReadable_iff.mpr fun n hn => n.isReadable_of_forall fun v hv => h v (.array hn hv)
  | .table origin es =>
    refine entriesReadable_iff.mpr fun e he => e.2.isReadable_of_forall fun v hv => ?_
    exact h v (.table he hv)
  | .tables elements =>
    refine elementsReadable_iff.mpr fun es hes e he => e.2.isReadable_of_forall fun v hv => ?_
    exact h v (.tables hes he hv)
termination_by n
decreasing_by
  · have hsize := List.sizeOf_lt_of_mem hn
    simp only [Node.array.sizeOf_spec]
    omega
  · have hsize := List.sizeOf_lt_of_mem he
    obtain ⟨key, n⟩ := e
    simp only [Node.table.sizeOf_spec, Prod.mk.sizeOf_spec] at *
    omega
  · have hsize := List.sizeOf_lt_of_mem hes
    have hsize' := List.sizeOf_lt_of_mem he
    obtain ⟨key, n⟩ := e
    simp only [Node.tables.sizeOf_spec, Prod.mk.sizeOf_spec] at *
    omega

theorem Node.isReadable_iff {n : Node} :
    n.isReadable = true ↔ ∀ v, n.Holds v → v.isReadable = true :=
  ⟨fun hread _ h => isReadable_of_holds h hread, n.isReadable_of_forall⟩

theorem entriesReadable_iff_hold {es : Entries} :
    entriesReadable es = true ↔ ∀ v, es.Hold v → v.isReadable = true := by
  rw [entriesReadable_iff]
  simp only [Node.isReadable_iff]
  exact ⟨fun h v ⟨e, he, hv⟩ => h e he v hv, fun h e he v hv => h v ⟨e, he, hv⟩⟩

/-! ## What a statement adds -/

/-- The change adds values of which these are the parts, and leaves the others as they are. -/
def Entries.Adds (change : Entries → Option Entries) (added : Scalar → Prop) : Prop :=
  ∀ es fs, change es = some fs → ∀ v, fs.Hold v ↔ es.Hold v ∨ added v

namespace Entries

variable {added : Scalar → Prop}

theorem adds_alter? {f : Option Node → Option Node} {key : String}
    (hf : ∀ old node, f old = some node → ∀ v,
      node.Holds v ↔ (∃ n ∈ old, n.Holds v) ∨ added v) : Adds (alter? f key) added := by
  intro es fs hfs v
  induction es generalizing fs with
  | nil =>
    obtain ⟨node, hnode, rfl⟩ := Option.map_eq_some_iff.mp hfs
    rw [hold_cons, hf none node hnode]
    simp [Hold]
  | cons e es ih =>
    obtain ⟨k, old⟩ := e
    rw [alter?_cons] at hfs
    split at hfs
    case isTrue =>
      obtain ⟨node, hnode, rfl⟩ := Option.map_eq_some_iff.mp hfs
      rw [hold_cons, hold_cons, hf (some old) node hnode]
      simp [or_assoc, or_comm (b := added v)]
    case isFalse =>
      obtain ⟨rest, hrest, rfl⟩ := Option.map_eq_some_iff.mp hfs
      rw [hold_cons, hold_cons, ih rest hrest, or_assoc]

section Inside

variable {change : Entries → Option Entries} {es : Entries} {node : Node}

/-- A change inside of a table adds to the table what it adds to the entries. -/
theorem Adds.table (h : Adds change added) {origin : Origin}
    (hnode : (change es).map (.table origin) = some node) (v : Scalar) :
    node.Holds v ↔ es.Hold v ∨ added v := by
  obtain ⟨fs, hfs, rfl⟩ := Option.map_eq_some_iff.mp hnode
  rw [Node.holds_table]
  exact h es fs hfs v

theorem Adds.latest (h : Adds change added) {earlier : List Entries}
    (hnode : (change es).map (fun es => .tables (es :: earlier)) = some node) (v : Scalar) :
    node.Holds v ↔ (Node.tables (es :: earlier)).Holds v ∨ added v := by
  obtain ⟨fs, hfs, rfl⟩ := Option.map_eq_some_iff.mp hnode
  simp only [Node.holds_tables, List.exists_mem_cons_iff, h es fs hfs v]
  rw [or_assoc, or_comm (a := added v), or_assoc]

end Inside

theorem adds_walk? {change : Entries → Option Entries} (h : Adds change added)
    (path : List String) : Adds (walk? change path) added := by
  induction path with
  | nil => exact h
  | cons key path ih =>
    refine adds_alter? fun old node hnode v => ?_
    unfold within? at hnode
    split at hnode
    case h_1 => simpa [Hold] using ih.table hnode v
    case h_3 => simpa [Node.holds_table] using ih.table hnode v
    case h_4 => simpa using ih.latest hnode v
    all_goals cases hnode

theorem adds_insert? (value : Node) (path : List String) :
    Adds (insert? value path) value.Holds := by
  induction path with
  | nil => exact fun _ _ h => nomatch h
  | cons key path ih =>
    cases path with
    | nil =>
      refine adds_alter? fun old node hnode v => ?_
      cases old with
      | none =>
        obtain rfl := Option.some.inj hnode
        simp
      | some old => cases hnode
    | cons next path =>
      refine adds_alter? fun old node hnode v => ?_
      split at hnode
      case h_1 => simpa [Hold] using ih.table hnode v
      case h_2 => simpa [Node.holds_table] using ih.table hnode v
      case h_3 =>
        simpa [Node.holds_table] using ih.table (Option.ite_none_left_eq_some.mp hnode).2 v
      case h_4 => simpa using ih.latest (Option.ite_none_left_eq_some.mp hnode).2 v
      case h_5 => cases hnode

/-- A header adds a table without entries. -/
theorem adds_openHeader? (key : String) : Adds (alter? openHeader? key) fun _ => False := by
  refine adds_alter? fun old node hnode v => ?_
  unfold openHeader? at hnode
  split at hnode
  case h_3 => cases hnode
  all_goals
    obtain rfl := Option.some.inj hnode
    simp [Node.holds_table, Hold]

theorem adds_openElement? (key : String) : Adds (alter? openElement? key) fun _ => False := by
  refine adds_alter? fun old node hnode v => ?_
  unfold openElement? at hnode
  split at hnode
  case h_3 => cases hnode
  all_goals
    obtain rfl := Option.some.inj hnode
    simp [Node.holds_tables, Hold]

theorem adds_open? {f : Option Node → Option Node} (h : ∀ key, Adds (alter? f key) added)
    (path : List String) : Adds (open? f path) added := by
  unfold open?
  split
  case h_1 => exact fun _ _ h => nomatch h
  case h_2 => exact adds_walk? (h _) _

end Entries

namespace Statement

/-- A value without parts that stands in the value of an entry. -/
def Gives : Statement → Scalar → Prop
  | header _ | element _ => fun _ => False
  | entry _ value => value.Holds

theorem adds_change (s : Statement) (current : List String) :
    Entries.Adds (s.change current) s.Gives := by
  cases s with
  | header path => exact Entries.adds_open? Entries.adds_openHeader? path
  | element path => exact Entries.adds_open? Entries.adds_openElement? path
  | entry path value => exact Entries.adds_walk? (Entries.adds_insert? value path) current

end Statement

namespace Document

theorem hold_run {ss : List Statement} {d e : Document} (h : ss.foldlM advance? d = some e)
    (v : Scalar) : e.root.Hold v ↔ d.root.Hold v ∨ ∃ s ∈ ss, s.Gives v := by
  induction ss generalizing d with
  | nil =>
    obtain rfl := Option.some.inj h
    simp
  | cons s ss ih =>
    rw [List.foldlM_cons] at h
    obtain ⟨d₁, hfirst, hrest⟩ := Option.bind_eq_some_iff.mp h
    rw [Statement.advance?_eq] at hfirst
    obtain ⟨root, hroot, rfl⟩ := Option.map_eq_some_iff.mp hfirst
    rw [ih hrest, s.adds_change d.current _ _ hroot, List.exists_mem_cons_iff, or_assoc]

/-- What stands in a document is what its statements give. -/
theorem hold_ofStatements? {ss : List Statement} {es : Entries} (h : ofStatements? ss = some es)
    (v : Scalar) : es.Hold v ↔ ∃ s ∈ ss, s.Gives v := by
  obtain ⟨d, hrun, rfl⟩ := Option.map_eq_some_iff.mp h
  rw [hold_run hrun]
  exact or_iff_right nofun

end Document

/-! ## Room for numbers -/

/-- A whole number has room in 128 bits, and a fraction in double precision. -/
def Scalar.Fits : Scalar → Prop
  | .integer n => -2 ^ 127 ≤ n ∧ n < 2 ^ 128
  | .float (some d) => Text.RoundsToDouble d.value
  | _ => True

/-- A fraction has digits, and nothing else in their place. -/
def Scalar.Proper (v : Scalar) : Prop :=
  ∀ d, v = .float (some d) → ∀ c ∈ d.digits, Text.isDigit c = true

theorem Scalar.isReadable_iff_fits {v : Scalar} (h : v.Proper) : v.isReadable = true ↔ v.Fits := by
  cases v with
  | integer n => simp [isReadable, Fits]
  | float m =>
    cases m with
    | none => simp [isReadable, Fits]
    | some d =>
      have hnonneg : |d.value| = d.value := abs_of_nonneg (Text.Decimal.value_nonneg d)
      rw [isReadable, Fits, Text.roundsToDouble_iff, hnonneg, Text.Decimal.isFinite_iff (h d rfl),
        Text.Decimal.overflowBound_eq]
  | _ => simp [isReadable, Fits]

/-- A fraction that is written in one of its forms has digits. -/
theorem SpellsWord.proper {v : Scalar} {cs : List Char} (h : SpellsWord v cs) : v.Proper := by
  rintro d rfl
  obtain ⟨cs, hunsigned⟩ : ∃ cs, SpellsUnsigned (some d) cs := by
    cases h with
    | float h => cases h <;> exact ⟨_, ‹_›⟩
  cases hunsigned with
  | magnitude h =>
    cases h with
    | pointed hwhole hfraction _ =>
      exact List.forall_mem_append.mpr ⟨hwhole.digits.digit, hfraction.digit⟩
    | scaled hwhole _ _ => exact hwhole.digits.digit

/-- What stands in a part of a value is proper. -/
def Part.Proper : Part → Prop
  | value v => ∀ x, v.Holds x → x.Proper
  | items vs => ∀ v ∈ vs, ∀ x, v.Holds x → x.Proper
  | members es fs => (∀ x, es.Hold x → x.Proper) → ∀ x, fs.Hold x → x.Proper

theorem Spells.proper {room : Nat} {part : Part} {cs : List Char} (h : Spells room part cs) :
    part.Proper := by
  have hmember : ∀ {es fs : Entries} {path : List String} {v : Node}, es.insert? v path = some fs →
      (∀ x, v.Holds x → x.Proper) → (∀ x, es.Hold x → x.Proper) → ∀ x, fs.Hold x → x.Proper := by
    intro es fs path v hinsert hv hes x hx
    rcases (Entries.adds_insert? v path es fs hinsert x).mp hx with hx | hx
    · exact hes x hx
    · exact hv x hx
  induction h with
  | word h =>
    intro x hx
    obtain rfl := Node.holds_scalar.mp hx
    exact h.proper
  | text _ | block _ =>
    intro x hx
    obtain rfl := Node.holds_scalar.mp hx
    exact nofun
  | array _ ih =>
    rintro x (_ | ⟨hmem, hx⟩)
    exact ih _ hmem x hx
  | table _ ih =>
    intro x hx
    exact ih nofun x (Node.holds_table.mp hx)
  | noItem _ => exact nofun
  | lastItem _ _ _ ih => exact List.forall_mem_singleton.mpr ih
  | item _ _ _ _ ih ihrest => exact List.forall_mem_cons.mpr ⟨ih, ihrest⟩
  | noMember _ => exact id
  | lastMember _ _ _ _ _ _ _ hinsert ih => exact hmember hinsert ih
  | member _ _ _ _ _ _ _ hinsert _ ih ihrest => exact fun hes => ihrest (hmember hinsert ih hes)

theorem Statement.Spelled.proper {s : Statement} {cs : List Char} (h : s.Spelled cs) (v : Scalar)
    (hv : s.Gives v) : v.Proper := by
  cases h with
  | header | element => exact hv.elim
  | entry _ _ hvalue _ _ _ _ _ => exact hvalue.proper v hv

/-! ## Keys -/

namespace Entries

/-- No key stands twice. -/
def HasDistinctKeys (es : Entries) : Prop := (es.map Prod.fst).Nodup

theorem keys_alter? {f : Option Node → Option Node} {key : String} {es fs : Entries}
    (h : alter? f key es = some fs) :
    fs.map Prod.fst = if key ∈ es.map Prod.fst then es.map Prod.fst
      else es.map Prod.fst ++ [key] := by
  induction es generalizing fs with
  | nil =>
    obtain ⟨node, _, rfl⟩ := Option.map_eq_some_iff.mp h
    rfl
  | cons e es ih =>
    obtain ⟨k, old⟩ := e
    rw [alter?_cons] at h
    split at h
    case isTrue hk =>
      obtain ⟨node, _, rfl⟩ := Option.map_eq_some_iff.mp h
      simp [hk]
    case isFalse hk =>
      obtain ⟨rest, hrest, rfl⟩ := Option.map_eq_some_iff.mp h
      rw [List.map_cons, ih hrest]
      have hkey : key ≠ k := fun h => hk h.symm
      by_cases hmem : key ∈ es.map Prod.fst
      · simp only [List.map_cons, List.mem_cons, hmem, or_true, if_true]
      · simp only [List.map_cons, List.mem_cons, hmem, hkey, or_false, if_false, List.cons_append]

theorem HasDistinctKeys.alter? {f : Option Node → Option Node} {key : String} {es fs : Entries}
    (hkeys : es.HasDistinctKeys) (h : alter? f key es = some fs) : fs.HasDistinctKeys := by
  unfold HasDistinctKeys
  rw [keys_alter? h]
  split
  case isTrue => exact hkeys
  case isFalse hmem =>
    refine List.nodup_append.mpr ⟨hkeys, List.pairwise_singleton _ _, fun k hk j hj => ?_⟩
    rintro rfl
    exact hmem (List.mem_singleton.mp hj ▸ hk)

theorem HasDistinctKeys.change {s : Statement} {current : List String} {es fs : Entries}
    (hkeys : es.HasDistinctKeys) (h : s.change current es = some fs) : fs.HasDistinctKeys := by
  cases hplace : s.place current with
  | nil =>
    rw [Statement.change_nil hplace] at h
    cases h
  | cons key path =>
    obtain ⟨f, hchange⟩ := Statement.changesAt hplace
    rw [hchange] at h
    exact hkeys.alter? h

/-- Each entry is the one that is found under its key. -/
theorem HasDistinctKeys.get? {es : Entries} (hkeys : es.HasDistinctKeys) {key : String}
    {node : Node} (hmem : (key, node) ∈ es) : es.get? key = some node := by
  induction es with
  | nil => cases hmem
  | cons e es ih =>
    obtain ⟨k, first⟩ := e
    obtain ⟨hfresh, hrest⟩ := List.nodup_cons.mp hkeys
    rw [get?_cons]
    rcases List.mem_cons.mp hmem with heq | hmem
    · obtain ⟨rfl, rfl⟩ := Prod.mk.inj heq
      exact if_pos rfl
    · have hk : k ≠ key := by
        rintro rfl
        exact hfresh (List.mem_map.mpr ⟨_, hmem, rfl⟩)
      rw [if_neg hk]
      exact ih hrest hmem

end Entries

end ShopQuery.Toml
