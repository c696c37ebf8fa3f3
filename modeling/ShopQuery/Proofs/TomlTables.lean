-- Tables without some of their entries. A statement that does not lead through these entries does
-- the same with them and without them, so a document can be read as if they were not there.
import ShopQuery.Toml.Document

namespace ShopQuery.Toml

/-! ## Changes of one entry -/

namespace Entries

variable {f : Option Node → Option Node} {key : String} {es fs : Entries}

theorem get?_cons (k : String) (node : Node) (es : Entries) (j : String) :
    get? ((k, node) :: es) j = if k = j then some node else get? es j := by
  unfold get?
  rw [List.lookup_cons]
  by_cases h : k = j
  · simp [h]
  · rw [if_neg h, beq_false_of_ne (Ne.symm h)]

theorem alter?_cons (k : String) (node : Node) (es : Entries) : alter? f key ((k, node) :: es)
    = if k = key then (f (some node)).map fun node => (k, node) :: es
      else (alter? f key es).map fun es => (k, node) :: es := by
  simp [alter?]

/-- What stands under the key afterwards. -/
theorem alter?_eq_some (h : alter? f key es = some fs) :
    ∃ node, f (es.get? key) = some node ∧ fs.get? key = some node := by
  induction es generalizing fs with
  | nil =>
    obtain ⟨node, hnode, rfl⟩ := Option.map_eq_some_iff.mp h
    exact ⟨node, hnode, by rw [get?_cons, if_pos rfl]⟩
  | cons e es ih =>
    obtain ⟨k, old⟩ := e
    rw [alter?_cons] at h
    rw [get?_cons]
    split at h
    case isTrue hk =>
      obtain ⟨node, hnode, rfl⟩ := Option.map_eq_some_iff.mp h
      exact ⟨node, by rwa [if_pos hk], by rw [get?_cons, if_pos hk]⟩
    case isFalse hk =>
      obtain ⟨rest, hrest, rfl⟩ := Option.map_eq_some_iff.mp h
      obtain ⟨node, hnode, hget⟩ := ih hrest
      exact ⟨node, by rwa [if_neg hk], by rwa [get?_cons, if_neg hk]⟩

/-- A change that can be made under the key can be made in the table. -/
theorem exists_alter? {node : Node} (h : f (es.get? key) = some node) :
    ∃ fs, alter? f key es = some fs ∧ fs.get? key = some node := by
  have hsome : ∃ fs, alter? f key es = some fs := by
    induction es with
    | nil => exact ⟨_, Option.map_eq_some_iff.mpr ⟨node, h, rfl⟩⟩
    | cons e es ih =>
      obtain ⟨k, old⟩ := e
      rw [get?_cons] at h
      rw [alter?_cons]
      split at h
      case isTrue hk => exact ⟨_, by rw [if_pos hk, h]; rfl⟩
      case isFalse hk =>
        obtain ⟨rest, hrest⟩ := ih h
        exact ⟨_, by rw [if_neg hk, hrest]; rfl⟩
  obtain ⟨fs, hfs⟩ := hsome
  obtain ⟨found, hfound, hget⟩ := alter?_eq_some hfs
  exact ⟨fs, hfs, hget.trans (hfound.symm.trans h)⟩

/-- The other entries stay as they are. -/
theorem get?_alter?_ne (h : alter? f key es = some fs) {j : String} (hj : j ≠ key) :
    fs.get? j = es.get? j := by
  induction es generalizing fs with
  | nil =>
    obtain ⟨node, _, rfl⟩ := Option.map_eq_some_iff.mp h
    rw [get?_cons, if_neg hj.symm]
  | cons e es ih =>
    obtain ⟨k, old⟩ := e
    rw [alter?_cons] at h
    split at h
    case isTrue hk =>
      obtain ⟨node, _, rfl⟩ := Option.map_eq_some_iff.mp h
      have hkj : k ≠ j := fun h => hj (h.symm.trans hk)
      rw [get?_cons, get?_cons, if_neg hkj, if_neg hkj]
    case isFalse hk =>
      obtain ⟨rest, hrest, rfl⟩ := Option.map_eq_some_iff.mp h
      rw [get?_cons, get?_cons, ih hrest]

/-- A change of an entry that is kept, in a table of which not all entries are kept. -/
theorem alter?_filter {p : String → Bool} (hkey : p key = true) (es : Entries) :
    alter? f key (es.filter fun e => p e.1)
      = (alter? f key es).map (List.filter fun e => p e.1) := by
  induction es with
  | nil =>
    rw [List.filter_nil]
    cases h : f none with
    | none => simp [alter?, h]
    | some node => simp [alter?, h, hkey]
  | cons e es ih =>
    obtain ⟨k, node⟩ := e
    have hfilter : ∀ (node : Node) (rest : Entries),
        List.filter (fun e => p e.1) ((k, node) :: rest)
        = if p k then (k, node) :: rest.filter (fun e => p e.1)
          else rest.filter fun e => p e.1 := fun _ _ => List.filter_cons
    rw [alter?_cons, hfilter]
    by_cases hk : k = key
    · subst hk
      rw [if_pos rfl, if_pos hkey, alter?_cons, if_pos rfl, Option.map_map]
      congr 1
      funext node
      rw [Function.comp_apply, hfilter, if_pos hkey]
    · rw [if_neg hk, Option.map_map]
      cases hp : p k with
      | true =>
        rw [if_pos rfl, alter?_cons, if_neg hk, ih, Option.map_map]
        congr 1
        funext rest
        rw [Function.comp_apply, Function.comp_apply, hfilter, hp, if_pos rfl]
      | false =>
        rw [if_neg Bool.false_ne_true, ih]
        congr 1
        funext rest
        rw [Function.comp_apply, hfilter, hp, if_neg Bool.false_ne_true]

/-- A change of an entry that is not kept. -/
theorem filter_alter? {p : String → Bool} (hkey : p key = false) (h : alter? f key es = some fs) :
    fs.filter (fun e => p e.1) = es.filter fun e => p e.1 := by
  induction es generalizing fs with
  | nil =>
    obtain ⟨node, _, rfl⟩ := Option.map_eq_some_iff.mp h
    exact List.filter_cons_of_neg (by simp [hkey])
  | cons e es ih =>
    obtain ⟨k, old⟩ := e
    rw [alter?_cons] at h
    split at h
    case isTrue hk =>
      obtain ⟨node, _, rfl⟩ := Option.map_eq_some_iff.mp h
      have hp : p k = false := hk ▸ hkey
      rw [List.filter_cons, List.filter_cons, hp]
      rfl
    case isFalse hk =>
      obtain ⟨rest, hrest, rfl⟩ := Option.map_eq_some_iff.mp h
      rw [List.filter_cons, List.filter_cons, ih hrest]

/-- A change of an entry in a table whose nodes are shown in another way. -/
theorem alter?_map {g : String → Node → Node}
    (hf : ∀ old, f (old.map (g key)) = (f old).map (g key)) (es : Entries) :
    alter? f key (es.map fun e => (e.1, g e.1 e.2))
      = (alter? f key es).map (List.map fun e => (e.1, g e.1 e.2)) := by
  induction es with
  | nil =>
    have hnone : f none = (f none).map (g key) := hf none
    calc (f none).map (fun node => [(key, node)])
        = ((f none).map (g key)).map fun node => [(key, node)] := by rw [← hnone]
      _ = ((f none).map fun node => [(key, node)]).map (List.map fun e => (e.1, g e.1 e.2)) := by
        rw [Option.map_map, Option.map_map]
        rfl
  | cons e es ih =>
    obtain ⟨k, node⟩ := e
    rw [List.map_cons, alter?_cons, alter?_cons]
    by_cases hk : k = key
    · subst hk
      have hsome : f (some (g k node)) = (f (some node)).map (g k) := hf (some node)
      rw [if_pos rfl, if_pos rfl, hsome, Option.map_map, Option.map_map]
      rfl
    · rw [if_neg hk, if_neg hk, ih, Option.map_map, Option.map_map]
      rfl

/-- A change of an entry that does not show. -/
theorem map_alter? {g : String → Node → Node} {old : Node} (hold : es.get? key = some old)
    (hg : ∀ node, f (some old) = some node → g key node = g key old)
    (h : alter? f key es = some fs) :
    (fs.map fun e => (e.1, g e.1 e.2)) = es.map fun e => (e.1, g e.1 e.2) := by
  induction es generalizing fs with
  | nil => cases hold
  | cons e es ih =>
    obtain ⟨k, first⟩ := e
    rw [alter?_cons] at h
    rw [get?_cons] at hold
    split at h
    case isTrue hk =>
      subst hk
      rw [if_pos rfl] at hold
      obtain rfl := Option.some.inj hold
      obtain ⟨node, hnode, rfl⟩ := Option.map_eq_some_iff.mp h
      rw [List.map_cons, List.map_cons, hg node hnode]
    case isFalse hk =>
      rw [if_neg hk] at hold
      obtain ⟨rest, hrest, rfl⟩ := Option.map_eq_some_iff.mp h
      rw [List.map_cons, List.map_cons, ih hold hrest]

/-- The change is a change of the entry under this key. -/
def ChangesAt (change : Entries → Option Entries) (key : String) : Prop :=
  ∃ f, change = alter? f key

end Entries

/-! ## Changes inside of a table -/

namespace Node

/-- A table without the entries of these names. -/
def without (names : List String) : Node → Node
  | table origin es => table origin (es.filter fun e => !names.contains e.1)
  | node => node

/-- What a table has under a name. -/
def entry? (name : String) : Node → Option Node
  | table _ es => Entries.get? es name
  | _ => none

/-- A table that is not complete where it is written. -/
def IsOpenTable (node : Node) : Prop := ∃ origin es, node = table origin es ∧ origin ≠ .inline

theorem without_nil (node : Node) : node.without [] = node := by
  cases node with
  | table origin es => simp [without]
  | _ => rfl

end Node

/-- A change of a node that makes the other change inside of it. A table is made where there is
none, and what is no table does not become one. -/
structure ChangesInside (f : Option Node → Option Node) (change : Entries → Option Entries) :
    Prop where
  none : ∃ origin, origin ≠ .inline ∧ f none = (change []).map (.table origin)
  table : ∀ origin, (∀ es, f (some (.table origin es)) = .none)
    ∨ origin ≠ .inline ∧ ∀ es, f (some (.table origin es)) = (change es).map (.table origin)
  other : ∀ node, (∀ origin es, node ≠ .table origin es) →
    f (some node) = .none ∨ ∃ elements, f (some node) = some (.tables elements)

namespace ChangesInside

variable {f : Option Node → Option Node} {change : Entries → Option Entries} {key : String}
  {names : List String}

/-- Entries with other names do not matter inside of a table. -/
theorem table_without (hchange : Entries.ChangesAt change key) (hkey : key ∉ names)
    (origin : Origin) (es : Entries) :
    (change (es.filter fun e => !names.contains e.1)).map (.table origin)
      = ((change es).map (.table origin)).map (Node.without names) := by
  obtain ⟨g, rfl⟩ := hchange
  have hfilter : ∀ es : Entries, Entries.alter? g key (es.filter fun e => !names.contains e.1)
      = (Entries.alter? g key es).map (List.filter fun e => !names.contains e.1) :=
    Entries.alter?_filter (p := fun k => !names.contains k) (by simpa using hkey)
  rw [hfilter, Option.map_map, Option.map_map]
  rfl

/-- Entries with other names do not matter to the change. -/
theorem map_without (h : ChangesInside f change) (hchange : Entries.ChangesAt change key)
    (hkey : key ∉ names) (old : Option Node) :
    f (old.map (Node.without names)) = (f old).map (Node.without names) := by
  have hother : ∀ node : Node, (∀ origin es, node ≠ .table origin es) →
      f (some node) = (f (some node)).map (Node.without names) := by
    intro node hnode
    rcases h.other node hnode with hf | ⟨elements, hf⟩ <;> rw [hf] <;> rfl
  cases old with
  | none =>
    obtain ⟨origin, _, hnone⟩ := h.none
    rw [Option.map_none, hnone]
    exact table_without hchange hkey origin []
  | some node =>
    cases node with
    | table origin es =>
      change f (some (.table origin _)) = _
      rcases h.table origin with hclosed | ⟨_, hopen⟩
      · rw [hclosed, hclosed]
        rfl
      · rw [hopen, hopen]
        exact table_without hchange hkey origin es
    | scalar v => exact hother (.scalar v) nofun
    | array items => exact hother (.array items) nofun
    | tables elements => exact hother (.tables elements) nofun

/-- An open table stays one, and its other entries stay as they are. -/
theorem of_openTable (h : ChangesInside f change) (hchange : Entries.ChangesAt change key)
    {old : Option Node} {node : Node} (hold : ∀ n ∈ old, n.IsOpenTable)
    (hnode : f old = some node) :
    node.IsOpenTable ∧ ∀ name, name ≠ key → node.entry? name = old.bind (Node.entry? name) := by
  obtain ⟨g, rfl⟩ := hchange
  cases old with
  | none =>
    obtain ⟨origin, horigin, hnone⟩ := h.none
    rw [hnone] at hnode
    obtain ⟨fs, hfs, rfl⟩ := Option.map_eq_some_iff.mp hnode
    exact ⟨⟨origin, fs, rfl, horigin⟩, fun name hname => Entries.get?_alter?_ne hfs hname⟩
  | some n =>
    obtain ⟨origin, es, rfl, horigin⟩ := hold n rfl
    rcases h.table origin with hclosed | ⟨_, hopen⟩
    · rw [hclosed es] at hnode
      cases hnode
    · rw [hopen es] at hnode
      obtain ⟨fs, hfs, rfl⟩ := Option.map_eq_some_iff.mp hnode
      exact ⟨⟨origin, fs, rfl, horigin⟩, fun name hname => Entries.get?_alter?_ne hfs hname⟩

end ChangesInside

/-! ## Changes along a path -/

namespace Entries

/-- The change is a change under the first key, and inside of it a change under the next one. -/
def ChangesAlong (change : Entries → Option Entries) (key next : String) : Prop :=
  ∃ f inner, change = alter? f key ∧ ChangesInside f inner ∧ ChangesAt inner next

/-- Either way of changing what is inside of several tables, of which the latest is open. -/
theorem latest_or_none (change : Entries → Option Entries) (es : Entries) (earlier : List Entries) :
    (change es).map (fun es => Node.tables (es :: earlier)) = none
      ∨ ∃ elements, (change es).map (fun es => Node.tables (es :: earlier))
        = some (.tables elements) := by
  cases change es with
  | none => exact Or.inl rfl
  | some fs => exact Or.inr ⟨_, rfl⟩

theorem changesInside_within? (change : Entries → Option Entries) :
    ChangesInside (within? change) change := by
  constructor
  case none => exact ⟨.implied, nofun, rfl⟩
  case table =>
    intro origin
    cases origin with
    | inline => exact Or.inl fun _ => rfl
    | _ => exact Or.inr ⟨nofun, fun _ => rfl⟩
  case other =>
    intro node hnode
    cases node with
    | scalar v => exact Or.inl rfl
    | array items => exact Or.inl rfl
    | table origin es => exact absurd rfl (hnode origin es)
    | tables elements =>
      cases elements with
      | nil => exact Or.inl rfl
      | cons es earlier => exact latest_or_none change es earlier

theorem changesAlong_walk? (f : Entries → Option Entries) (key : String) (path : List String)
    {next : String} (h : ChangesAt (walk? f path) next) :
    ChangesAlong (walk? f (key :: path)) key next :=
  ⟨_, _, rfl, changesInside_within? _, h⟩

theorem changesAt_insert? (value : Node) (key : String) (path : List String) :
    ChangesAt (insert? value (key :: path)) key := by
  cases path with
  | nil => exact ⟨_, rfl⟩
  | cons next path => exact ⟨_, rfl⟩

theorem changesAlong_insert? (value : Node) (key next : String) (path : List String) :
    ChangesAlong (insert? value (key :: next :: path)) key next := by
  refine ⟨_, insert? value (next :: path), rfl, ?_, changesAt_insert? value next path⟩
  constructor
  case none => exact ⟨.dotted, nofun, rfl⟩
  case table =>
    intro origin
    cases origin with
    | dotted => exact Or.inr ⟨nofun, fun _ => rfl⟩
    | implied =>
      cases path with
      | nil => exact Or.inl fun _ => rfl
      | cons _ _ => exact Or.inr ⟨nofun, fun _ => rfl⟩
    | _ => exact Or.inl fun _ => rfl
  case other =>
    intro node hnode
    cases node with
    | scalar v => exact Or.inl rfl
    | array items => exact Or.inl rfl
    | table origin es => exact absurd rfl (hnode origin es)
    | tables elements =>
      cases elements with
      | nil => exact Or.inl rfl
      | cons es earlier =>
        cases path with
        | nil => exact Or.inl rfl
        | cons _ _ => exact latest_or_none _ es earlier

/-- Where a header leads to the end of its path. -/
theorem changesAt_open? (f : Option Node → Option Node) (key : String) (path : List String) :
    ChangesAt (walk? (alter? f ((key :: path).getLast (List.cons_ne_nil _ _)))
      (key :: path).dropLast) key := by
  cases path with
  | nil => exact ⟨_, rfl⟩
  | cons next path => exact ⟨_, rfl⟩

theorem open?_cons (f : Option Node → Option Node) (key : String) (path : List String) :
    open? f (key :: path) = walk? (alter? f ((key :: path).getLast (List.cons_ne_nil _ _)))
      (key :: path).dropLast := by
  funext es
  unfold open?
  rw [List.getLast?_eq_some_getLast (List.cons_ne_nil _ _)]

theorem changesAlong_open? (f : Option Node → Option Node) (key next : String)
    (path : List String) : ChangesAlong (open? f (key :: next :: path)) key next := by
  rw [open?_cons]
  exact changesAlong_walk? _ key _ (changesAt_open? f next path)

end Entries

/-! ## Statements -/

namespace Statement

/-- The path from the root to what the statement names, for entries from the current table on. -/
def place (current : List String) : Statement → List String
  | header path | element path => path
  | entry path _ => current ++ path

/-- The path of the table that further entries go to. -/
def next (current : List String) : Statement → List String
  | header path | element path => path
  | entry _ _ => current

/-- What the statement does to the root. -/
def change (current : List String) : Statement → Entries → Option Entries
  | header path => Entries.open? Entries.openHeader? path
  | element path => Entries.open? Entries.openElement? path
  | entry path value => Entries.walk? (Entries.insert? value path) current

theorem advance?_eq (s : Statement) (d : Document) :
    d.advance? s = (s.change d.current d.root).map fun root => ⟨root, s.next d.current⟩ := by
  cases s <;> rfl

theorem change_nil {s : Statement} {current : List String} (h : s.place current = []) :
    s.change current = fun _ => none := by
  cases s with
  | header path =>
    obtain rfl : path = [] := h
    rfl
  | element path =>
    obtain rfl : path = [] := h
    rfl
  | entry path value =>
    obtain ⟨rfl, rfl⟩ : current = [] ∧ path = [] := List.append_eq_nil_iff.mp h
    rfl

theorem changesAt {s : Statement} {current : List String} {key : String} {path : List String}
    (h : s.place current = key :: path) : Entries.ChangesAt (s.change current) key := by
  cases s with
  | header p | element p =>
    obtain rfl : p = key :: path := h
    rw [change, Entries.open?_cons]
    exact Entries.changesAt_open? _ key path
  | entry p value =>
    cases current with
    | nil =>
      obtain rfl : p = key :: path := h
      exact Entries.changesAt_insert? value key path
    | cons k rest =>
      obtain ⟨rfl, _⟩ : k = key ∧ rest ++ p = path := List.cons.inj h
      exact ⟨_, rfl⟩

theorem changesAlong {s : Statement} {current : List String} {key next : String}
    {path : List String} (h : s.place current = key :: next :: path) :
    Entries.ChangesAlong (s.change current) key next := by
  cases s with
  | header p | element p =>
    obtain rfl : p = key :: next :: path := h
    exact Entries.changesAlong_open? _ key next path
  | entry p value =>
    match current, h with
    | [], h =>
      obtain rfl : p = key :: next :: path := h
      exact Entries.changesAlong_insert? value key next path
    | [k], h =>
      obtain ⟨rfl, rfl⟩ : k = key ∧ p = next :: path := List.cons.inj h
      exact Entries.changesAlong_walk? _ k [] (Entries.changesAt_insert? value next path)
    | k :: j :: rest, h =>
      simp only [place, List.cons_append, List.cons.injEq] at h
      obtain ⟨rfl, rfl, _⟩ := h
      exact Entries.changesAlong_walk? _ k _ ⟨_, rfl⟩

end Statement

/-! ## Hidden entries -/

/-- The names that are hidden in each table of the root. -/
abbrev Hidden := String → List String

namespace Entries

variable (hidden : Hidden)

/-- The entries without those that are hidden. -/
def hide (es : Entries) : Entries := es.map fun e => (e.1, e.2.without (hidden e.1))

/-- What stands under a name in a table of the root. -/
def inside? (es : Entries) (key name : String) : Option Node :=
  (es.get? key).bind (Node.entry? name)

/-- Where something is hidden there is an open table or nothing. -/
def HasOpenTables (es : Entries) : Prop :=
  ∀ key, hidden key ≠ [] → ∀ node ∈ es.get? key, node.IsOpenTable

/-- What a change does that does not lead through hidden entries. -/
structure Spares (change : Entries → Option Entries) : Prop where
  hide : ∀ es, change (es.hide hidden) = (change es).map (hide hidden)
  tables : ∀ es fs, change es = some fs → es.HasOpenTables hidden → fs.HasOpenTables hidden
  inside : ∀ es fs, change es = some fs → es.HasOpenTables hidden → ∀ key, ∀ name ∈ hidden key,
    fs.inside? key name = es.inside? key name

variable {hidden}

/-- A change of one node spares what is hidden if it does so inside of the node. -/
theorem spares_alter? {f : Option Node → Option Node} {key : String}
    (hf : ∀ old, f (old.map (Node.without (hidden key))) = (f old).map (Node.without (hidden key)))
    (hinside : hidden key ≠ [] → ∀ old node, (∀ n ∈ old, n.IsOpenTable) → f old = some node →
      node.IsOpenTable ∧ ∀ name ∈ hidden key, node.entry? name = old.bind (Node.entry? name)) :
    Spares hidden (alter? f key) := by
  constructor
  case hide => exact alter?_map (g := fun key node => node.without (hidden key)) hf
  case tables =>
    intro es fs hfs htables k hk node hnode
    by_cases hkey : k = key
    · subst hkey
      obtain ⟨found, hfound, hget⟩ := alter?_eq_some hfs
      obtain rfl := Option.some.inj (hget.symm.trans hnode)
      exact (hinside hk _ _ (htables k hk) hfound).1
    · rw [get?_alter?_ne hfs hkey] at hnode
      exact htables k hk node hnode
  case inside =>
    intro es fs hfs htables k name hname
    unfold inside?
    by_cases hkey : k = key
    · subst hkey
      have hk : hidden k ≠ [] := List.ne_nil_of_mem hname
      obtain ⟨found, hfound, hget⟩ := alter?_eq_some hfs
      rw [hget]
      exact (hinside hk _ _ (htables k hk) hfound).2 name hname
    · rw [get?_alter?_ne hfs hkey]

theorem exists_insert? {members : Entries} {name : String} (hfree : get? members name = none)
    (value : Node) :
    ∃ added, insert? value [name] members = some added ∧ get? added name = some value := by
  have hadd : (if (get? members name).isSome then none else some value) = some value := by
    rw [hfree]
    rfl
  exact exists_alter? (f := fun old => if old.isSome then none else some value) hadd

theorem within?_open {origin : Origin} (h : origin ≠ .inline) (change : Entries → Option Entries)
    (es : Entries) :
    within? change (some (.table origin es)) = (change es).map (.table origin) := by
  cases origin with
  | inline => exact absurd rfl h
  | _ => rfl

/-- A hidden entry is added where it is free, and nothing else changes. -/
theorem exists_insert_hidden {es : Entries} {key name : String} {node : Node}
    (htables : es.HasOpenTables hidden) (hname : name ∈ hidden key)
    (hnode : es.get? key = some node) (hfree : es.inside? key name = none) (value : Node) :
    ∃ fs, walk? (insert? value [name]) [key] es = some fs ∧ fs.hide hidden = es.hide hidden
      ∧ fs.HasOpenTables hidden ∧ fs.inside? key name = some value
      ∧ ∀ k n, k ≠ key ∨ n ≠ name → fs.inside? k n = es.inside? k n := by
  obtain ⟨origin, members, rfl, horigin⟩ := htables key (List.ne_nil_of_mem hname) node hnode
  have hmember : get? members name = none := by
    simpa [inside?, hnode, Node.entry?] using hfree
  obtain ⟨added, hadded, hvalue⟩ := exists_insert? hmember value
  have hwithin : within? (insert? value [name]) (es.get? key) = some (.table origin added) := by
    rw [hnode, within?_open horigin, hadded]
    rfl
  obtain ⟨fs, hfs, hget⟩ := exists_alter? hwithin
  refine ⟨fs, hfs, ?hide, ?tables, ?value, ?others⟩
  case hide =>
    refine map_alter? (g := fun k node => node.without (hidden k)) hnode (fun _ hchanged => ?_) hfs
    rw [hnode] at hwithin
    obtain rfl := Option.some.inj (hwithin.symm.trans hchanged)
    exact congrArg (Node.table origin)
      (filter_alter? (p := fun n => !(hidden key).contains n) (by simpa using hname) hadded)
  case tables =>
    intro k hk found hfound
    by_cases hkey : k = key
    · subst hkey
      exact ⟨origin, added, Option.some.inj (hfound.symm.trans hget), horigin⟩
    · rw [get?_alter?_ne hfs hkey] at hfound
      exact htables k hk found hfound
  case value =>
    unfold inside?
    rw [hget]
    exact hvalue
  case others =>
    intro k n hne
    unfold inside?
    by_cases hkey : k = key
    · subst hkey
      rw [hget, hnode]
      exact get?_alter?_ne hadded (hne.resolve_left fun h => h rfl)
    · rw [get?_alter?_ne hfs hkey]

end Entries

/-- The path does not lead to a table in which something is hidden, nor through what is hidden. -/
def Apart (hidden : Hidden) : List String → Prop
  | [] => True
  | [key] => hidden key = []
  | key :: next :: _ => next ∉ hidden key

theorem Statement.spares {hidden : Hidden} {s : Statement} {current : List String}
    (h : Apart hidden (s.place current)) : Entries.Spares hidden (s.change current) := by
  match hplace : s.place current, h with
  | [], _ =>
    rw [change_nil hplace]
    exact ⟨fun _ => rfl, nofun, nofun⟩
  | [key], hkey =>
    obtain ⟨f, hchange⟩ := changesAt hplace
    rw [hchange]
    refine Entries.spares_alter? (fun old => ?_) (absurd hkey)
    have hwithout : ∀ old : Option Node, old.map (Node.without (hidden key)) = old := by
      intro old
      rw [show hidden key = [] from hkey]
      cases old with
      | none => rfl
      | some node => exact congrArg some node.without_nil
    rw [hwithout, hwithout]
  | key :: next :: path, hnext =>
    obtain ⟨f, inner, hchange, hinside, hinner⟩ := changesAlong hplace
    rw [hchange]
    refine Entries.spares_alter? (hinside.map_without hinner hnext) fun _ old node hold hnode => ?_
    obtain ⟨htable, hentry⟩ := hinside.of_openTable hinner hold hnode
    exact ⟨htable, fun name hname => hentry name fun h => hnext (h ▸ hname)⟩

/-- A header of a table of the root. -/
theorem Entries.spares_openHeader (hidden : Hidden) (key : String) :
    Spares hidden (open? openHeader? [key]) := by
  rw [open?_cons]
  refine spares_alter? (fun old => ?_) fun _ old node hold hnode => ?_
  · cases old with
    | none => rfl
    | some node =>
      cases node with
      | table origin es => cases origin <;> rfl
      | _ => rfl
  · cases old with
    | none =>
      obtain rfl := Option.some.inj hnode
      exact ⟨⟨.header, [], rfl, nofun⟩, fun _ _ => rfl⟩
    | some n =>
      obtain ⟨origin, es, rfl, _⟩ := hold n rfl
      cases origin with
      | implied =>
        obtain rfl := Option.some.inj hnode
        exact ⟨⟨.header, es, rfl, nofun⟩, fun _ _ => rfl⟩
      | _ => cases hnode

end ShopQuery.Toml
