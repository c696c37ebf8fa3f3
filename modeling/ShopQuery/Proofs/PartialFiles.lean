-- Settings files that mention some of the fields. Whatever stands between their lines, the fields
-- that a file mentions have the values it gives them and the others their defaults, as long as
-- there is room for the numbers that stand besides. A page size that is no number of 32 bits makes
-- the file one of no settings.
import ShopQuery.Proofs.TomlNumbers

namespace ShopQuery

open Toml (Document Entries Hidden Node Scalar Spells Statement maxDepth maxParts)

namespace Settings

/-! ## Fields -/

/-- The tables of a file in which fields stand. -/
inductive Section
  | paging
  | connection
  deriving DecidableEq

def Section.name : Section → String
  | paging => "paging"
  | connection => "neo4j"

/-- The fields of the settings. -/
inductive Field
  | defaultSize
  | maxSize
  | url
  | username
  | password
  deriving DecidableEq

/-- The table in which a field stands. -/
def Field.home : Field → Section
  | defaultSize | maxSize => .paging
  | url | username | password => .connection

/-- The key of a field in its table. -/
def Field.name : Field → String
  | defaultSize => "default_page_size"
  | maxSize => "max_page_size"
  | url => "url"
  | username => "username"
  | password => "password"

/-- The value of a field as a file gives it. -/
def value (s : Settings) : Field → Scalar
  | .defaultSize => .integer s.paging.defaultSize.toNat
  | .maxSize => .integer s.paging.maxSize.toNat
  | .url => .text s.connection.url
  | .username => .text s.connection.username
  | .password => .text s.connection.password

/-- The settings with some of their fields, the others at their defaults. -/
def keeping (s : Settings) (fields : List Field) : Settings :=
  let base : Settings := {}
  { paging :=
      { defaultSize :=
          if .defaultSize ∈ fields then s.paging.defaultSize else base.paging.defaultSize
        maxSize := if .maxSize ∈ fields then s.paging.maxSize else base.paging.maxSize }
    connection :=
      { url := if .url ∈ fields then s.connection.url else base.connection.url
        username := if .username ∈ fields then s.connection.username else base.connection.username
        password :=
          if .password ∈ fields then s.connection.password else base.connection.password } }

/-! ## Files -/

/-- What stands on a line of a file, or on several lines that hold one value. -/
inductive Line
  /-- The header of a section. -/
  | header (home : Section)
  /-- The value of a field. -/
  | field (f : Field)
  /-- Any other statement, or blanks and a comment. -/
  | other (statement : Option Statement)

/-- The names of the fields in each table. -/
def hidden : Hidden
  | "paging" => ["default_page_size", "max_page_size"]
  | "neo4j" => ["url", "username", "password"]
  | _ => []

namespace Line

variable (values : Field → Scalar)

/-- The statement of a line. -/
def statement? : Line → Option Statement
  | header home => some (.header [home.name])
  | field f => some (.entry [f.name] (.scalar (values f)))
  | other statement => statement

/-- The statement of a line, unless it is the value of a field. -/
def besides? : Line → Option Statement
  | header home => some (.header [home.name])
  | field _ => none
  | other statement => statement

/-- The field that a line is about. -/
def field? : Line → Option Field
  | field f => some f
  | _ => none

/-- How a line may be written: in every form that the language has for its statement. -/
def Written (line : Line) (cs : List Char) : Prop := Toml.SpellsLine (line.statement? values) cs

/-- The lines of a text. -/
inductive WrittenAll : List Line → List Char → Prop
  | last {line : Line} {cs : List Char} (h : line.Written values cs) : WrittenAll [line] cs
  | cons {line : Line} {lines : List Line} {cs lineEnd rest : List Char}
      (h : line.Written values cs) (hend : Toml.IsLineEnd lineEnd) (hrest : WrittenAll lines rest) :
    WrittenAll (line :: lines) (cs ++ lineEnd ++ rest)

/-- There is room for every number in the values that a line gives to other keys than fields. -/
def Fits : Line → Prop
  | other (some s) => ∀ v, s.Gives v → v.Fits
  | _ => True

/-- From the table at a path on, every field stands in its own table, and no other statement leads
to a section or through a field. -/
def InPlace : List String → List Line → Prop
  | _, [] => True
  | _, header home :: rest => InPlace [home.name] rest
  | path, field f :: rest => path = [f.home.name] ∧ InPlace path rest
  | path, other none :: rest => InPlace path rest
  | path, other (some s) :: rest => Toml.Apart hidden (s.place path) ∧ InPlace (s.next path) rest

end Line

/-- The fields that lines mention. -/
def mentioned (lines : List Line) : List Field := lines.filterMap Line.field?

/-- A file that gives these fields these values. Each field stands once below the header of its
section. Without the lines of the fields the file is a document too, so no header stands twice. -/
structure IsFile (values : Field → Scalar) (fields : List Field) (lines : List Line)
    (text : String) : Prop where
  written : Line.WrittenAll values lines (Toml.withoutMark text.toList)
  mentioned : ∀ f, f ∈ mentioned lines ↔ f ∈ fields
  once : (Settings.mentioned lines).Nodup
  inPlace : Line.InPlace [] lines
  besides : ∃ es, Document.ofStatements? (lines.filterMap Line.besides?) = some es

/-! ## Statements of a file -/

theorem Line.statements?_of_writtenAll {values : Field → Scalar} {lines : List Line}
    {cs : List Char} (h : WrittenAll values lines cs) :
    Toml.statements? cs = some (lines.filterMap (statement? values)) := by
  induction h with
  | @last line cs h =>
    rw [Toml.statements?_of_spellsLine h]
    cases hs : line.statement? values <;> simp [hs]
  | @cons line lines cs lineEnd rest h hend _ ih =>
    rw [Toml.statements?_lines (Toml.statements?_of_spellsLine h) hend, ih]
    cases hs : line.statement? values <;> simp [hs]

theorem Line.exists_written_of_mem {values : Field → Scalar} {lines : List Line} {cs : List Char}
    (h : WrittenAll values lines cs) {line : Line} (hline : line ∈ lines) :
    ∃ cs, line.Written values cs := by
  induction h with
  | last h =>
    obtain rfl := List.mem_singleton.mp hline
    exact ⟨_, h⟩
  | cons h _ _ ih =>
    rcases List.mem_cons.mp hline with rfl | hline
    · exact ⟨_, h⟩
    · exact ih hline

/-- What other lines give is readable if and only if there is room for it. -/
theorem Line.readable_iff {values : Field → Scalar} {lines : List Line} {cs : List Char}
    (h : WrittenAll values lines cs) :
    (∀ v, (∃ s ∈ lines.filterMap besides?, s.Gives v) → v.isReadable = true)
      ↔ ∀ line ∈ lines, line.Fits := by
  have hfits : ∀ s, other (some s) ∈ lines → ∀ v, s.Gives v → (v.isReadable = true ↔ v.Fits) := by
    intro s hs v hv
    obtain ⟨cs, hwritten⟩ := exists_written_of_mem h hs
    cases hwritten with
    | statement hspelled => exact Scalar.isReadable_iff_fits (hspelled.proper v hv)
  constructor
  · intro hread line hline
    match line with
    | header _ | field _ | other none => trivial
    | other (some s) =>
      intro v hv
      have hmem : s ∈ lines.filterMap besides? := List.mem_filterMap.mpr ⟨_, hline, rfl⟩
      exact (hfits s hline v hv).mp (hread v ⟨s, hmem, hv⟩)
  · rintro hlines v ⟨s, hs, hv⟩
    obtain ⟨line, hline, hbesides⟩ := List.mem_filterMap.mp hs
    match line with
    | header home =>
      obtain rfl := Option.some.inj hbesides
      exact hv.elim
    | field _ => cases hbesides
    | other statement =>
      obtain rfl : statement = some s := hbesides
      exact (hfits s hline v hv).mpr (hlines _ hline v hv)

/-! ## Documents without fields -/

theorem Field.name_mem_hidden (f : Field) : f.name ∈ hidden f.home.name := by
  cases f <;> decide

theorem hidden_eq_nil {key : String} (h : ["paging", "neo4j"].contains key = false) :
    hidden key = [] := by
  unfold hidden
  split
  case h_3 => rfl
  all_goals cases h

theorem Field.name_injective {f g : Field} (h : f.name = g.name) : f = g := by
  cases f <;> cases g <;> simp_all [name]

/-- The document is the other one with these fields filled in. -/
structure Fills (values : Field → Scalar) (given : List Field) (d e : Document) : Prop where
  current : d.current = e.current
  root : d.root.hide hidden = e.root
  keys : d.root.HasDistinctKeys
  tables : d.root.HasOpenTables hidden
  opened : ∀ key, d.current = [key] → (d.root.get? key).isSome = true
  fields : ∀ f : Field, d.root.inside? f.home.name f.name
    = if f ∈ given then some (.scalar (values f)) else none

namespace Fills

variable {values : Field → Scalar} {given : List Field} {d e e' : Document}

/-- A statement that leads to a table of the root makes that table. -/
theorem isSome_get? {s : Statement} {current : List String} {es fs : Entries} {key : String}
    (hnext : s.next current = [key]) (h : s.change current es = some fs) :
    (fs.get? key).isSome = true := by
  have hplace : ∃ path, s.place current = key :: path := by
    cases s with
    | header path | element path => exact ⟨[], hnext⟩
    | entry path value =>
      obtain rfl : current = [key] := hnext
      exact ⟨path, rfl⟩
  obtain ⟨path, hplace⟩ := hplace
  obtain ⟨f, hchange⟩ := Statement.changesAt hplace
  rw [hchange] at h
  obtain ⟨node, _, hget⟩ := Entries.alter?_eq_some h
  exact Option.isSome_iff_exists.mpr ⟨node, hget⟩

/-- A statement that spares the fields goes on with both documents. -/
theorem advance (h : Fills values given d e) {s : Statement}
    (hspares : Entries.Spares hidden (s.change e.current)) (he : e.advance? s = some e') :
    ∃ d', d.advance? s = some d' ∧ e'.current = s.next e.current ∧ Fills values given d' e' := by
  rw [Statement.advance?_eq, ← h.root, hspares.hide] at he
  rw [Statement.advance?_eq, h.current]
  obtain ⟨_, hroot, rfl⟩ := Option.map_eq_some_iff.mp he
  obtain ⟨root, hchange, rfl⟩ := Option.map_eq_some_iff.mp hroot
  rw [hchange]
  refine ⟨_, rfl, rfl, ?_⟩
  constructor
  case current => rfl
  case root => rfl
  case keys => exact h.keys.change hchange
  case tables => exact hspares.tables _ _ hchange h.tables
  case opened => exact fun key hkey => isSome_get? hkey hchange
  case fields =>
    intro f
    rw [hspares.inside _ _ hchange h.tables _ _ f.name_mem_hidden]
    exact h.fields f

/-- The value of a further field is filled in. -/
theorem give (h : Fills values given d e) {f : Field} (hf : f ∉ given)
    (hplace : e.current = [f.home.name]) :
    ∃ d', d.advance? (.entry [f.name] (.scalar (values f))) = some d'
      ∧ Fills values (given ++ [f]) d' e := by
  have hcurrent : d.current = [f.home.name] := h.current.trans hplace
  obtain ⟨node, hnode⟩ := Option.isSome_iff_exists.mp (h.opened _ hcurrent)
  have hfree : d.root.inside? f.home.name f.name = none := by rw [h.fields, if_neg hf]
  obtain ⟨root, hwalk, hhide, htables, hvalue, hothers⟩ :=
    Entries.exists_insert_hidden h.tables f.name_mem_hidden hnode hfree (.scalar (values f))
  have hchange : (Statement.entry [f.name] (.scalar (values f))).change d.current d.root
      = some root := by
    rw [hcurrent]
    exact hwalk
  rw [Statement.advance?_eq, hchange]
  refine ⟨_, rfl, ?_⟩
  constructor
  case current => exact h.current
  case root => exact hhide.trans h.root
  case keys => exact h.keys.change hchange
  case tables => exact htables
  case opened => exact fun key hkey => isSome_get? hkey hchange
  case fields =>
    intro g
    change root.inside? g.home.name g.name = _
    by_cases hg : g = f
    · rw [hg, hvalue, if_pos (by simp)]
    · rw [hothers _ _ (Or.inr fun h => hg (Field.name_injective h)), h.fields]
      simp [hg]

/-- The lines of a file, with the fields and without them. -/
theorem run {lines : List Line} (h : Fills values given d e)
    (hplaces : Line.InPlace e.current lines) (honce : (given ++ mentioned lines).Nodup)
    (he : (lines.filterMap Line.besides?).foldlM Document.advance? e = some e') :
    ∃ d', (lines.filterMap (Line.statement? values)).foldlM Document.advance? d = some d'
      ∧ Fills values (given ++ mentioned lines) d' e' := by
  induction lines generalizing given d e with
  | nil =>
    obtain rfl := Option.some.inj he
    exact ⟨d, rfl, by simpa [mentioned] using h⟩
  | cons line lines ih =>
    have hspared : ∀ s : Statement, Entries.Spares hidden (s.change e.current) →
        Line.InPlace (s.next e.current) lines → (given ++ mentioned lines).Nodup →
        (s :: lines.filterMap Line.besides?).foldlM Document.advance? e = some e' →
        ∃ d', (s :: lines.filterMap (Line.statement? values)).foldlM Document.advance? d = some d'
          ∧ Fills values (given ++ mentioned lines) d' e' := by
      intro s hspares hplaces honce he
      obtain ⟨e₁, hfirst, hrest⟩ := Option.bind_eq_some_iff.mp he
      obtain ⟨d₁, hd₁, hcurrent, hfills⟩ := h.advance hspares hfirst
      obtain ⟨d', hd', hfills⟩ := ih hfills (hcurrent ▸ hplaces) honce hrest
      exact ⟨d', by rw [List.foldlM_cons, hd₁]; exact hd', hfills⟩
    cases line with
    | header home => exact hspared _ (Entries.spares_openHeader _ _) hplaces honce he
    | field f =>
      obtain ⟨hplace, hplaces⟩ := hplaces
      have hmentioned :
          given ++ mentioned (.field f :: lines) = given ++ [f] ++ mentioned lines := by
        simp [mentioned, Line.field?]
      rw [hmentioned] at honce ⊢
      have hf : f ∉ given := by
        have hgiven := (List.nodup_append.mp (List.nodup_append.mp honce).1).2.2
        exact fun hf => hgiven f hf f (List.mem_singleton_self f) rfl
      obtain ⟨d₁, hd₁, hfills⟩ := h.give hf hplace
      obtain ⟨d', hd', hfills⟩ := ih hfills hplaces honce he
      refine ⟨d', ?_, hfills⟩
      rw [List.filterMap_cons, Line.statement?, List.foldlM_cons, hd₁]
      exact hd'
    | other statement =>
      cases statement with
      | none => exact ih h hplaces honce he
      | some s => exact hspared s (Statement.spares hplaces.1) hplaces.2 honce he

end Fills

/-! ## Settings of a document -/

/-- The settings with the values that are found for their fields. -/
def ofFields? (found : Field → Option Node) : Option Settings :=
  let base : Settings := {}
  return {
    paging :=
      { defaultSize := ← field? Node.pageSize? base.paging.defaultSize (found .defaultSize)
        maxSize := ← field? Node.pageSize? base.paging.maxSize (found .maxSize) }
    connection :=
      { url := ← field? Node.text? base.connection.url (found .url)
        username := ← field? Node.text? base.connection.username (found .username)
        password := ← field? Node.text? base.connection.password (found .password) } }

/-- A section gives its fields if all but the fields is readable. -/
theorem fields?_of_openTable {key : String} {node : Node} (htable : node.IsOpenTable) :
    fields? (hidden key) node = if (node.without (hidden key)).isReadable then
      some ((hidden key).map fun name => node.entry? name) else none := by
  obtain ⟨origin, es, rfl, _⟩ := htable
  have hall : (es.all fun e => (hidden key).contains e.1 || e.2.isReadable)
      = ((Node.table origin es).without (hidden key)).isReadable := by
    rw [Bool.eq_iff_iff, List.all_eq_true]
    simp [Node.without, Node.isReadable, Toml.entriesReadable_iff, Decidable.or_iff_not_imp_left]
  rw [fields?, hall]
  rfl

section Hide

variable {es : Entries} (htables : es.HasOpenTables hidden)
include htables

/-- What is found of the fields in a section that there is. -/
theorem fields?_of_hide {key : String} {node : Node} (hkey : hidden key ≠ [])
    (hnode : es.get? key = some node) :
    fields? (hidden key) node = if (node.without (hidden key)).isReadable then
      some ((hidden key).map fun name => es.inside? key name) else none := by
  unfold Entries.inside?
  rw [hnode]
  exact fields?_of_openTable (htables key hkey node hnode)

theorem fields?_eq_none {key : String} {node : Node} (hkey : hidden key ≠ [])
    (hnode : es.get? key = some node) (hnot : (node.without (hidden key)).isReadable = false) :
    fields? (hidden key) node = none := by
  rw [fields?_of_hide htables hkey hnode, hnot, if_neg Bool.false_ne_true]

/-- The rest is not readable: then there are no settings. -/
theorem ofEntries?_eq_none (hkeys : es.HasDistinctKeys)
    (hread : ¬ Toml.entriesReadable (es.hide hidden) = true) : ofEntries? es = none := by
  have hentry : ∃ e ∈ es, (e.2.without (hidden e.1)).isReadable = false := by
    simpa [Toml.entriesReadable_iff, Entries.hide] using hread
  obtain ⟨⟨key, node⟩, hmem, hnot⟩ := hentry
  have hnode := hkeys.get? hmem
  dsimp only at hnot
  cases hknown : ["paging", "neo4j"].contains key with
  | false =>
    rw [hidden_eq_nil hknown, Node.without_nil] at hnot
    have hguard : (es.all fun e => ["paging", "neo4j"].contains e.1 || e.2.isReadable) = false :=
      List.all_eq_false.mpr ⟨_, hmem, by dsimp only; rw [hknown, hnot]; decide⟩
    rw [ofEntries?, hguard]
    rfl
  | true =>
    have hkey : key = "paging" ∨ key = "neo4j" := by simpa using hknown
    rcases hkey with rfl | rfl
    · have hfields := fields?_eq_none htables (by decide) hnode hnot
      have hpaging : field? pagingOf? {} (es.get? "paging") = none := by
        rw [hnode, field?, pagingOf?,
          show ["default_page_size", "max_page_size"] = hidden "paging" from rfl, hfields]
        rfl
      rw [ofEntries?, hpaging]
      exact Option.bind_eq_none_iff.mpr fun _ _ => rfl
    · have hfields := fields?_eq_none htables (by decide) hnode hnot
      have hconnection : field? connectionOf? {} (es.get? "neo4j") = none := by
        rw [hnode, field?, connectionOf?,
          show ["url", "username", "password"] = hidden "neo4j" from rfl, hfields]
        rfl
      rw [ofEntries?, hconnection]
      exact Option.bind_eq_none_iff.mpr fun _ _ => Option.bind_eq_none_iff.mpr fun _ _ => rfl

variable (hread : Toml.entriesReadable (es.hide hidden) = true)
include hread

theorem fields?_of_readable {key : String} {node : Node} (hkey : hidden key ≠ [])
    (hnode : es.get? key = some node) :
    fields? (hidden key) node = some ((hidden key).map fun name => es.inside? key name) := by
  obtain ⟨before, after, hes, _⟩ := List.lookup_eq_some_iff.mp hnode
  have hmem : (key, node) ∈ es := by rw [hes]; simp
  rw [fields?_of_hide htables hkey hnode]
  exact if_pos (Toml.entriesReadable_iff.mp hread _ (List.mem_map_of_mem hmem))

theorem paging_of_hide : field? pagingOf? {} (es.get? "paging") = (do
    let base : Paging := {}
    return { defaultSize := ← field? Node.pageSize? base.defaultSize
               (es.inside? "paging" "default_page_size")
             maxSize := ← field? Node.pageSize? base.maxSize
               (es.inside? "paging" "max_page_size") }) := by
  cases hnode : es.get? "paging" with
  | none => simp [Entries.inside?, hnode, field?]
  | some node =>
    have hfields := fields?_of_readable htables hread (by decide) hnode
    change pagingOf? node = _
    unfold pagingOf?
    rw [show ["default_page_size", "max_page_size"] = hidden "paging" from rfl, hfields]
    rfl

theorem connection_of_hide : field? connectionOf? {} (es.get? "neo4j") = (do
    let base : Connection := {}
    return { url := ← field? Node.text? base.url (es.inside? "neo4j" "url")
             username := ← field? Node.text? base.username (es.inside? "neo4j" "username")
             password := ← field? Node.text? base.password
               (es.inside? "neo4j" "password") }) := by
  cases hnode : es.get? "neo4j" with
  | none => simp [Entries.inside?, hnode, field?]
  | some node =>
    have hfields := fields?_of_readable htables hread (by decide) hnode
    change connectionOf? node = _
    unfold connectionOf?
    rw [show ["url", "username", "password"] = hidden "neo4j" from rfl, hfields]
    rfl

/-- The settings of a document depend on what it has for their fields, if the rest is readable. -/
theorem ofEntries?_of_hide :
    ofEntries? es = ofFields? fun f => es.inside? f.home.name f.name := by
  have hguard : (es.all fun e => ["paging", "neo4j"].contains e.1 || e.2.isReadable) = true := by
    rw [List.all_eq_true]
    intro e he
    cases hknown : ["paging", "neo4j"].contains e.1 with
    | true => rfl
    | false =>
      have hreadable := Toml.entriesReadable_iff.mp hread _ (List.mem_map_of_mem he)
      rwa [hidden_eq_nil hknown, Node.without_nil] at hreadable
  unfold ofEntries? ofFields?
  rw [hguard, paging_of_hide htables hread, connection_of_hide htables hread]
  simp [Field.home, Field.name, Section.name, guard, Option.bind_assoc]

end Hide

/-- A field that is given has what is read of its value, another one its default. -/
theorem field?_given {α : Type} {read? : Node → Option α} {base x : α} {v : Scalar} {p : Prop}
    [Decidable p] (h : p → read? (.scalar v) = some x) :
    field? read? base (if p then some (.scalar v) else none) = some (if p then x else base) := by
  split
  case isTrue hp => exact h hp
  case isFalse => rfl

theorem pageSize?_toNat (n : UInt32) : Node.pageSize? (.scalar (.integer n.toNat)) = some n := by
  have hn : (n.toNat : Int).toNat < 2 ^ 32 := n.toNat_lt
  simp [Node.pageSize?, Text.word32?, n.toNat_lt]

theorem pageSize?_eq_none {n : Int} (h : n < 0 ∨ 2 ^ 32 ≤ n) :
    Node.pageSize? (.scalar (.integer n)) = none := by
  have hsize : UInt32.size = 2 ^ 32 := rfl
  unfold Node.pageSize? Text.word32?
  exact dif_neg (by omega)

theorem ofFields?_value {values : Field → Scalar} {fields : List Field} {s : Settings}
    (h : ∀ f ∈ fields, values f = s.value f) :
    ofFields? (fun f => if f ∈ fields then some (.scalar (values f)) else none)
      = some (s.keeping fields) := by
  unfold ofFields?
  dsimp only
  rw [field?_given (x := s.paging.defaultSize) fun hf => h _ hf ▸ pageSize?_toNat _,
    field?_given (x := s.paging.maxSize) fun hf => h _ hf ▸ pageSize?_toNat _,
    field?_given (x := s.connection.url) fun hf => h _ hf ▸ rfl,
    field?_given (x := s.connection.username) fun hf => h _ hf ▸ rfl,
    field?_given (x := s.connection.password) fun hf => h _ hf ▸ rfl]
  rfl

theorem ofFields?_eq_none {found : Field → Option Node} {f : Field} (hf : f.home = .paging)
    {n : Int} (h : found f = some (.scalar (.integer n))) (hn : n < 0 ∨ 2 ^ 32 ≤ n) :
    ofFields? found = none := by
  have hnone : ∀ base, field? Node.pageSize? base (found f) = none := by
    intro base
    rw [h]
    exact pageSize?_eq_none hn
  unfold ofFields?
  cases f with
  | defaultSize => simp [hnone]
  | maxSize => simp [hnone]
  | _ => cases hf

/-- The document of a file, with what its lines give to the fields. -/
theorem IsFile.exists_document {values : Field → Scalar} {fields : List Field} {lines : List Line}
    {text : String} (h : IsFile values fields lines text) :
    ∃ es : Entries, ofToml? text = ofEntries? es ∧ es.HasOpenTables hidden ∧ es.HasDistinctKeys
      ∧ (Toml.entriesReadable (es.hide hidden) = true ↔ ∀ line ∈ lines, line.Fits)
      ∧ ∀ f : Field, es.inside? f.home.name f.name
        = if f ∈ fields then some (.scalar (values f)) else none := by
  obtain ⟨rest, hbesides⟩ := h.besides
  have hread := Document.hold_ofStatements? hbesides
  obtain ⟨e, hrun, rfl⟩ := Option.map_eq_some_iff.mp hbesides
  have hempty : Fills values [] {} {} :=
    ⟨rfl, rfl, List.nodup_nil, fun _ _ _ hnode => (nomatch hnode), fun _ hkey => (nomatch hkey),
      fun _ => rfl⟩
  obtain ⟨d, hd, hfills⟩ := hempty.run h.inPlace h.once hrun
  refine ⟨d.root, ?_, hfills.tables, hfills.keys, ?_, fun f => ?_⟩
  · rw [ofToml?, Document.read?_eq, Line.statements?_of_writtenAll h.written, Option.bind_some,
      Document.ofStatements?, hd]
    rfl
  · rw [hfills.root, Toml.entriesReadable_iff_hold]
    simp only [hread]
    exact Line.readable_iff h.written
  · rw [hfills.fields f, List.nil_append]
    simp only [h.mentioned f]

/-- A file gives the settings with what stands in the lines of its fields. -/
theorem IsFile.ofToml?_eq {values : Field → Scalar} {fields : List Field} {lines : List Line}
    {text : String} (h : IsFile values fields lines text) (hroom : ∀ line ∈ lines, line.Fits) :
    ofToml? text
      = ofFields? fun f => if f ∈ fields then some (.scalar (values f)) else none := by
  obtain ⟨es, hes, htables, _, hread, hfields⟩ := h.exists_document
  rw [hes, ofEntries?_of_hide htables (hread.mpr hroom)]
  congr 1
  funext f
  exact hfields f

theorem IsFile.ofToml?_eq_none {values : Field → Scalar} {fields : List Field} {lines : List Line}
    {text : String} (h : IsFile values fields lines text)
    (hroom : ¬ ∀ line ∈ lines, line.Fits) : ofToml? text = none := by
  obtain ⟨es, hes, htables, hkeys, hread, _⟩ := h.exists_document
  rw [hes, ofEntries?_eq_none htables hkeys (mt hread.mp hroom)]

/-! ## Every choice of fields has a file -/

theorem exists_spelled_value (s : Settings) (f : Field) :
    ∃ cs, Spells maxDepth (.value (.scalar (s.value f))) cs := by
  have hinteger : ∀ n : Int, ∃ cs, Spells maxDepth (.value (.scalar (.integer n))) cs := fun n =>
    (Toml.exists_spellsInteger n).imp fun _ h => .word (.integer h)
  have htext : ∀ t, ∃ cs, Spells maxDepth (.value (.scalar (.text t))) cs := fun t =>
    (Toml.exists_spellsText t).imp fun _ h => .text h
  cases f with
  | defaultSize | maxSize => exact hinteger _
  | url | username | password => exact htext _

/-- The header of a section with nothing around its name. -/
theorem Line.written_header (values : Field → Scalar) (home : Section) :
    (header home).Written values ('[' :: (home.name.toList ++ [']'])) := by
  have hblanks : Toml.IsBlanks [] := nofun
  have hkey : Toml.SpellsKey home.name home.name.toList := by
    cases home <;> exact .bare (by decide) (by decide)
  have hparts : 1 ≤ maxParts := by decide
  exact .statement (.header (.last hkey) hparts hblanks hblanks hblanks hblanks .none)

/-- An entry with blanks around its sign or none. -/
theorem Line.spelled_entry {name : String} {v : Node} {blanks cs : List Char}
    (hne : name.toList ≠ []) (hkey : Toml.isBareKey name.toList = true)
    (hblanks : Toml.IsBlanks blanks) (h : Spells maxDepth (.value v) cs) :
    (Statement.entry [name] v).Spelled (name.toList ++ (blanks ++ '=' :: (blanks ++ cs))) := by
  have hnothing : Toml.IsBlanks [] := nofun
  have hparts : 1 ≤ maxParts := by decide
  have hentry := Statement.Spelled.entry (.last (.bare hne hkey)) hparts h hnothing hblanks hblanks
    hnothing .none
  simpa using hentry

/-- The value of a field with nothing around it. -/
theorem Line.written_field {values : Field → Scalar} {f : Field} {cs : List Char}
    (h : Spells maxDepth (.value (.scalar (values f))) cs) :
    (field f).Written values (f.name.toList ++ '=' :: cs) := by
  have hne : f.name.toList ≠ [] := by cases f <;> decide
  have hkey : Toml.isBareKey f.name.toList = true := by cases f <;> decide
  have hnothing : Toml.IsBlanks [] := nofun
  exact .statement (spelled_entry hne hkey hnothing h)

theorem Line.exists_written {values : Field → Scalar}
    (hvalues : ∀ f, ∃ cs, Spells maxDepth (.value (.scalar (values f))) cs) {line : Line}
    (h : ∀ s, line ≠ .other s) : ∃ cs, line.Written values cs := by
  cases line with
  | header home => exact ⟨_, written_header values home⟩
  | field f =>
    obtain ⟨cs, hcs⟩ := hvalues f
    exact ⟨_, written_field hcs⟩
  | other s => exact absurd rfl (h s)

theorem Line.exists_writtenAll {values : Field → Scalar}
    (hvalues : ∀ f, ∃ cs, Spells maxDepth (.value (.scalar (values f))) cs) {lines : List Line}
    (hne : lines ≠ []) (h : ∀ line ∈ lines, ∀ s, line ≠ .other s) :
    ∃ cs, WrittenAll values lines cs := by
  induction lines with
  | nil => exact absurd rfl hne
  | cons line lines ih =>
    obtain ⟨hline, hlines⟩ := List.forall_mem_cons.mp h
    obtain ⟨cs, hcs⟩ := exists_written hvalues hline
    cases lines with
    | nil => exact ⟨cs, .last hcs⟩
    | cons next lines =>
      obtain ⟨rest, hrest⟩ := ih (List.cons_ne_nil _ _) hlines
      exact ⟨_, .cons hcs (Or.inl rfl) hrest⟩

/-- The fields that stand in a section. -/
def Section.fields : Section → List Field
  | paging => [.defaultSize, .maxSize]
  | connection => [.url, .username, .password]

/-- The header of a section and those of its fields that a file is to give. -/
def sectionLines (fields : List Field) (home : Section) : List Line :=
  .header home :: (home.fields.filter fields.contains).map .field

/-- A file with the two sections and nothing besides. -/
def fileLines (fields : List Field) : List Line :=
  sectionLines fields .paging ++ sectionLines fields .connection

theorem inPlace_append {home : Section} {fields : List Field} (h : ∀ f ∈ fields, f.home = home)
    {lines : List Line} (hlines : Line.InPlace [home.name] lines) :
    Line.InPlace [home.name] (fields.map .field ++ lines) := by
  induction fields with
  | nil => exact hlines
  | cons f fields ih =>
    obtain ⟨hf, hfields⟩ := List.forall_mem_cons.mp h
    exact ⟨by rw [hf], ih hfields⟩

theorem inPlace_fileLines (fields : List Field) : Line.InPlace [] (fileLines fields) := by
  have hhome : ∀ home : Section, ∀ f ∈ home.fields.filter fields.contains, f.home = home := by
    intro home f hf
    have hmem := (List.mem_filter.mp hf).1
    cases home <;> cases f <;> simp_all [Section.fields, Field.home]
  have hlast : Line.InPlace [Section.connection.name]
      ((Section.connection.fields.filter fields.contains).map .field ++ []) :=
    inPlace_append (hhome .connection) trivial
  rw [List.append_nil] at hlast
  exact inPlace_append (hhome .paging) hlast

theorem mentioned_fileLines (fields : List Field) : mentioned (fileLines fields)
    = (Section.paging.fields ++ Section.connection.fields).filter fields.contains := by
  have hfields : ∀ fields : List Field, (fields.map Line.field).filterMap Line.field? = fields := by
    intro fields
    simp [List.filterMap_map, Function.comp_def, Line.field?]
  have hheader : ∀ home, Line.field? (.header home) = none := fun _ => rfl
  simp only [mentioned, fileLines, sectionLines, List.filterMap_append, List.filterMap_cons,
    hheader, hfields, List.filter_append]

theorem besides_fileLines (fields : List Field) : (fileLines fields).filterMap Line.besides?
    = [.header ["paging"], .header ["neo4j"]] := by
  have hfields : ∀ fields : List Field, (fields.map Line.field).filterMap Line.besides? = [] := by
    intro fields
    simp [List.filterMap_map, Function.comp_def, Line.besides?]
  simp [fileLines, sectionLines, Line.besides?, Section.name, hfields]

/-- All settings have a file for any of their fields. -/
theorem exists_isFile (s : Settings) (fields : List Field) :
    ∃ lines text, IsFile s.value fields lines text ∧ ∀ line ∈ lines, line.Fits := by
  have htail : ∃ cs, Line.WrittenAll s.value ((Section.paging.fields.filter fields.contains).map
      .field ++ sectionLines fields .connection) cs := by
    apply Line.exists_writtenAll s.exists_spelled_value
    · simp [sectionLines]
    · intro line hline statement
      simp only [sectionLines, List.mem_append, List.mem_cons, List.mem_map] at hline
      rintro rfl
      simp at hline
  obtain ⟨cs, hcs⟩ := htail
  have hwritten := Line.WrittenAll.cons (Line.written_header s.value .paging) (Or.inl rfl) hcs
  refine ⟨fileLines fields,
    String.ofList ('[' :: (Section.paging.name.toList ++ [']']) ++ ['\n'] ++ cs), ?_, ?room⟩
  case room =>
    intro line hline
    simp only [fileLines, sectionLines, List.mem_append, List.mem_cons, List.mem_map] at hline
    rcases hline with (rfl | ⟨f, _, rfl⟩) | (rfl | ⟨f, _, rfl⟩) <;> trivial
  constructor
  case written =>
    rw [String.toList_ofList]
    exact hwritten
  case mentioned =>
    intro f
    rw [mentioned_fileLines]
    cases f <;> simp [Section.fields]
  case once =>
    rw [mentioned_fileLines]
    exact List.Pairwise.filter _ (by decide)
  case inPlace => exact inPlace_fileLines fields
  case besides =>
    rw [besides_fileLines]
    exact ⟨_, rfl⟩

end Settings

/-! ## The law -/

open Settings in
/-- A file changes the fields that it mentions and no other, whatever else stands in it and in
whichever order and form, as long as there is room for the numbers that it gives to other keys; one
number without room makes it no settings file. Nor is it one with a page size that is negative or
has no place in 32 bits. And for all settings and any of their fields there are such files. -/
theorem a_file_changes_what_it_mentions :
    (∀ (values : Field → Scalar) (fields : List Field) (lines : List Line) (text : String),
      IsFile values fields lines text →
        (∀ s : Settings, (∀ f ∈ fields, values f = s.value f) →
          (∀ line ∈ lines, line.Fits) → ofToml? text = some (s.keeping fields))
        ∧ ((¬ ∀ line ∈ lines, line.Fits) → ofToml? text = none)
        ∧ ∀ f ∈ fields, f.home = .paging → ∀ n : Int, values f = .integer n →
          n < 0 ∨ 2 ^ 32 ≤ n → ofToml? text = none)
      ∧ ∀ (s : Settings) (fields : List Field), ∃ lines text,
        IsFile s.value fields lines text ∧ ∀ line ∈ lines, line.Fits := by
  constructor
  · intro values fields lines text h
    refine ⟨fun s hs hroom => ?_, h.ofToml?_eq_none, fun f hf hhome n hvalue hn => ?_⟩
    · rw [h.ofToml?_eq hroom]
      exact ofFields?_value hs
    · by_cases hroom : ∀ line ∈ lines, line.Fits
      · rw [h.ofToml?_eq hroom]
        exact ofFields?_eq_none hhome (by rw [if_pos hf, hvalue]) hn
      · exact h.ofToml?_eq_none hroom
  · exact exists_isFile

open Settings in
/-- A color changes nothing, and a tab may be written as an escape. -/
theorem a_color_in_a_file_changes_nothing :
    ofToml? "[paging]\ncolor = 'red'\nmax_page_size=200\n[neo4j]\npassword=\"\\t\""
        = some { paging := { maxSize := 200 }, connection := { password := "\t" } }
      ∧ ofToml? "[paging]\nmax_page_size=-1" = none := by
  have hend : Toml.IsLineEnd ['\n'] := Or.inl rfl
  constructor
  · let s : Settings := { paging := { maxSize := 200 }, connection := { password := "\t" } }
    let color : Statement := .entry ["color"] (.scalar (.text "red"))
    have hmax : Spells maxDepth (.value (.scalar (s.value .maxSize))) "200".toList :=
      .word (.integer (.bare (Toml.spellsNatural_repr 200)))
    have htab : Toml.SpellsChars "\t".toList ['\x5c', 't'] := .cons (.short rfl) .nil
    have hpassword : Spells maxDepth (.value (.scalar (s.value .password))) "\"\\t\"".toList :=
      .text (.double htab)
    have hred : Spells maxDepth (.value (.scalar (.text "red"))) "'red'".toList :=
      .text (.single (by simp [Toml.isPlain]))
    have hspace : Toml.IsBlanks [' '] := List.forall_mem_singleton.mpr rfl
    have hcolor : (Line.other (some color)).Written s.value "color = 'red'".toList :=
      .statement (Line.spelled_entry (by decide) (by decide) hspace hred)
    have hwritten := Line.WrittenAll.cons (Line.written_header s.value .paging) hend (.cons hcolor
      hend (.cons (Line.written_field hmax) hend (.cons (Line.written_header _ .connection) hend
        (.last (Line.written_field hpassword)))))
    have hfile : IsFile s.value [.maxSize, .password]
        [.header .paging, .other (some color), .field .maxSize, .header .connection,
          .field .password]
        "[paging]\ncolor = 'red'\nmax_page_size=200\n[neo4j]\npassword=\"\\t\"" := by
      have hapart : "color" ∉ ["default_page_size", "max_page_size"] := by decide
      refine ⟨hwritten, fun f => ?_, by decide, ⟨hapart, rfl, rfl, trivial⟩, _, rfl⟩
      cases f <;> simp [mentioned, Line.field?]
    refine (a_file_changes_what_it_mentions.1 _ _ _ _ hfile).1 s (fun _ _ => rfl) ?_
    have hfits : (Line.other (some color)).Fits := by
      intro v hv
      obtain rfl := Node.holds_scalar.mp hv
      trivial
    simpa [Line.Fits] using hfits
  · let values : Field → Scalar := fun _ => .integer (-1)
    have hmax : Spells maxDepth (.value (.scalar (values .maxSize))) "-1".toList :=
      .word (.integer (.minus (Toml.spellsNatural_repr 1)))
    have hwritten := Line.WrittenAll.cons (Line.written_header values .paging) hend
      (.last (Line.written_field (f := .maxSize) hmax))
    have hfile : IsFile values [.maxSize] [.header .paging, .field .maxSize]
        "[paging]\nmax_page_size=-1" := by
      refine ⟨hwritten, fun f => ?_, by decide, ⟨rfl, trivial⟩, _, rfl⟩
      cases f <;> simp [mentioned, Line.field?]
    exact (a_file_changes_what_it_mentions.1 _ _ _ _ hfile).2.2 .maxSize List.mem_cons_self rfl (-1)
      rfl (by omega)

open Settings in
/-- A document may give a number to a key that is no field, and be no settings file for want of room
for the number. -/
theorem a_number_may_have_no_room :
    (∃ lines, IsFile (value { paging := { maxSize := 7 } }) [.maxSize] lines
      "[paging]\ncolor = 1e400\nmax_page_size=7")
    ∧ (Document.read? "[paging]\ncolor = 1e400\nmax_page_size=7").isSome = true
    ∧ ofToml? "[paging]\ncolor = 1e400\nmax_page_size=7" = none := by
  refine ⟨?_, by decide +kernel, by decide +kernel⟩
  let s : Settings := { paging := { maxSize := 7 } }
  let color : Statement := .entry ["color"] (.scalar (.float (some ⟨['1'], 400⟩)))
  have hend : Toml.IsLineEnd ['\n'] := Or.inl rfl
  have hmax : Spells maxDepth (.value (.scalar (s.value .maxSize))) "7".toList :=
    .word (.integer (.bare (Toml.spellsNatural_repr 7)))
  have hlarge : Spells maxDepth (.value (.scalar (.float (some ⟨['1'], 400⟩)))) "1e400".toList := by
    have hone : Toml.SpellsWhole ['1'] ['1'] := ⟨.last rfl, by simp⟩
    have hexponent : Toml.SpellsExponent (400 : Nat) ['4', '0', '0'] :=
      .bare (.next rfl (.next rfl (.last rfl))) (Text.natural?_iff_writes.mp rfl)
    exact .word (.float (.bare (.magnitude (.scaled hone (.mark (Or.inl rfl) hexponent) nofun))))
  have hspace : Toml.IsBlanks [' '] := List.forall_mem_singleton.mpr rfl
  have hcolor : (Line.other (some color)).Written s.value "color = 1e400".toList :=
    .statement (Line.spelled_entry (by decide) (by decide) hspace hlarge)
  have hwritten := Line.WrittenAll.cons (Line.written_header s.value .paging) hend (.cons hcolor
    hend (.last (Line.written_field hmax)))
  have hapart : "color" ∉ ["default_page_size", "max_page_size"] := by decide
  refine ⟨_, hwritten, fun f => ?_, by decide, ⟨hapart, rfl, trivial⟩, _, rfl⟩
  cases f <;> simp [mentioned, Line.field?]

end ShopQuery
