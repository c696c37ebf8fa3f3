-- Where the settings of a run come from, and how a run ends. Each field is asked of its own
-- sources alone and the nearest one that says something decides; page sizes are looked at twice,
-- before and after the command line has its say; and a run that fails prints nothing.
import ShopQuery.Program
import ShopQuery.Proofs.Numerals
import ShopQuery.Proofs.RequestMeaning

namespace ShopQuery

open Toml (Node)

/-! ## Documents as sources -/

namespace Toml

/-- The member of a section under one of the names of its fields: by its name in a table, and
by the place of its name in an array. -/
def Node.member? (names : List String) (name : String) : Node → Option Node
  | .table _ es => Entries.get? es name
  | .array items => items[names.idxOf name]?
  | _ => none

namespace Entries

variable (es : Entries)

/-- The page size that a document gives under a name. -/
def pageSize? (name : String) : Option UInt32 :=
  ((es.get? "paging").bind (Node.member? ["default_page_size", "max_page_size"] name)).bind
    Node.pageSize?

/-- The text about the connection that a document gives under a name. -/
def connectionText? (name : String) : Option String :=
  ((es.get? "neo4j").bind (Node.member? ["url", "username", "password"] name)).bind Node.text?

end Entries

end Toml

/-! ## The nearest source -/

/-- What the first of the sources that says something says, or else a default. -/
def nearest {α : Type} (sources : List (Option α)) (default : α) : α :=
  (sources.findSome? id).getD default

@[simp] theorem nearest_nil {α : Type} (default : α) : nearest [] default = default := rfl

@[simp] theorem nearest_cons {α : Type} (source : Option α) (rest : List (Option α)) (default : α) :
    nearest (source :: rest) default = source.getD (nearest rest default) := by
  cases source <;> rfl

namespace Settings

/-- The settings in which every field comes from the nearest of its own sources: an option,
where there is one for it, then a variable, then the document, and at last a default. -/
def fromSources (defaultSize maxSize : Option UInt32) (env : Environment) (es : Toml.Entries) :
    Settings where
  paging :=
    { defaultSize := nearest [defaultSize, pageSizeFrom? env "SHOPGRAPH_DEFAULT_PAGE_SIZE",
        es.pageSize? "default_page_size"] 10
      maxSize := nearest [maxSize, pageSizeFrom? env "SHOPGRAPH_MAX_PAGE_SIZE",
        es.pageSize? "max_page_size"] 50 }
  connection :=
    { url := nearest [env "NEO4J_URL", es.connectionText? "url"] "neo4j://localhost:7687"
      username := nearest [env "NEO4J_USERNAME", es.connectionText? "username"] "neo4j"
      password := nearest [env "NEO4J_PASSWORD", es.connectionText? "password"] "" }

/-- No page size is below one. -/
structure Usable (s : Settings) : Prop where
  defaultSize : 1 ≤ s.paging.defaultSize
  maxSize : 1 ≤ s.paging.maxSize

end Settings

/-! ## Success -/

/-- The document with the settings: an empty one where no file is named, and none where the
file cannot be read. -/
def Host.document? (host : Host) : Option String → Option Toml.Entries
  | none => some []
  | some path => ((host.file path).toOption.bind String.fromUTF8?).bind Toml.Document.read?

namespace Invocation

/-- The settings that the sources of an invocation come to. -/
def effective (i : Invocation) (host : Host) (es : Toml.Entries) : Settings :=
  .fromSources i.defaultPageSize i.maxPageSize host.env es

/-- An invocation succeeds: there is a document and it reads as settings, its page sizes are
usable before and after those of the command line, and then the command has an output. -/
structure Succeeds (i : Invocation) (host : Host) (es : Toml.Entries) (out : String) : Prop where
  document : host.document? i.config = some es
  understood : (Settings.ofEntries? es).isSome
  loaded : (Settings.fromSources none none host.env es).Usable
  overridden : (i.effective host es).Usable
  output : i.command.run (i.effective host es) i.format = .ok out

end Invocation

/-! ## Steps that may fail -/

theorem bind_eq_ok {ε α β : Type} {x : Except ε α} {f : α → Except ε β} {b : β} :
    x >>= f = .ok b ↔ ∃ a, x = .ok a ∧ f a = .ok b := by
  cases x with
  | error fault => simp [bind, Except.bind]
  | ok a => simp [bind, Except.bind]

theorem mapError_eq_ok {ε δ α : Type} {x : Except ε α} {f : ε → δ} {a : α} :
    x.mapError f = .ok a ↔ x = .ok a := by
  cases x with
  | error fault => simp [Except.mapError]
  | ok b => simp [Except.mapError]

/-! ## Settings of a document -/

namespace Settings

theorem field?_eq_some {α : Type} {read? : Node → Option α} {default value : α}
    {found : Option Node} (h : field? read? default found = some value) :
    value = (found.bind read?).getD default := by
  cases found with
  | none => exact (Option.some.inj h).symm
  | some node =>
    rw [field?] at h
    rw [Option.bind_some, h, Option.getD_some]

/-- The values of a section are its members in the order of the names. -/
theorem fields?_eq_some {names : List String} (hn : names.Nodup) {node : Node}
    {values : List (Option Node)} (h : fields? names node = some values) :
    values = names.map fun name => node.member? names name := by
  unfold fields? at h
  split at h
  case h_1 =>
    split at h
    · exact (Option.some.inj h).symm
    · cases h
  case h_2 items =>
    rw [← Option.some.inj h]
    apply List.ext_getElem (by simp)
    intro i h₁ h₂
    rw [List.getElem_map, List.getElem_map, List.getElem_range, Node.member?,
      hn.idxOf_getElem]
  case h_3 => exact (Option.some.inj h).symm
  case h_4 => cases h

theorem pagingOf?_eq_some {node : Node} {p : Paging} (h : pagingOf? node = some p) :
    p =
      { defaultSize := ((node.member? ["default_page_size", "max_page_size"]
          "default_page_size").bind Node.pageSize?).getD 10
        maxSize := ((node.member? ["default_page_size", "max_page_size"]
          "max_page_size").bind Node.pageSize?).getD 50 } := by
  unfold pagingOf? at h
  obtain ⟨values, hvalues, h⟩ := Option.bind_eq_some_iff.mp h
  obtain rfl := fields?_eq_some (by decide) hvalues
  simp only [List.map_cons, List.map_nil] at h
  obtain ⟨defaultSize, hdefault, h⟩ := Option.bind_eq_some_iff.mp h
  obtain ⟨maxSize, hmax, h⟩ := Option.bind_eq_some_iff.mp h
  rw [← Option.some.inj h, field?_eq_some hdefault, field?_eq_some hmax]

theorem connectionOf?_eq_some {node : Node} {c : Connection} (h : connectionOf? node = some c) :
    c =
      { url := ((node.member? ["url", "username", "password"] "url").bind
          Node.text?).getD "neo4j://localhost:7687"
        username := ((node.member? ["url", "username", "password"] "username").bind
          Node.text?).getD "neo4j"
        password := ((node.member? ["url", "username", "password"] "password").bind
          Node.text?).getD "" } := by
  unfold connectionOf? at h
  obtain ⟨values, hvalues, h⟩ := Option.bind_eq_some_iff.mp h
  obtain rfl := fields?_eq_some (by decide) hvalues
  simp only [List.map_cons, List.map_nil] at h
  obtain ⟨url, hurl, h⟩ := Option.bind_eq_some_iff.mp h
  obtain ⟨username, husername, h⟩ := Option.bind_eq_some_iff.mp h
  obtain ⟨password, hpassword, h⟩ := Option.bind_eq_some_iff.mp h
  rw [← Option.some.inj h, field?_eq_some hurl, field?_eq_some husername,
    field?_eq_some hpassword]

/-- What a document leaves out has its default, and nothing else counts for a field. -/
theorem ofEntries?_eq_some {es : Toml.Entries} {s : Settings} (h : ofEntries? es = some s) :
    s =
      { paging :=
          { defaultSize := (es.pageSize? "default_page_size").getD 10
            maxSize := (es.pageSize? "max_page_size").getD 50 }
        connection :=
          { url := (es.connectionText? "url").getD "neo4j://localhost:7687"
            username := (es.connectionText? "username").getD "neo4j"
            password := (es.connectionText? "password").getD "" } } := by
  unfold ofEntries? at h
  obtain ⟨_, _, h⟩ := Option.bind_eq_some_iff.mp h
  obtain ⟨paging, hpaging, h⟩ := Option.bind_eq_some_iff.mp h
  obtain ⟨connection, hconnection, h⟩ := Option.bind_eq_some_iff.mp h
  rw [← Option.some.inj h]
  unfold Toml.Entries.pageSize? Toml.Entries.connectionText?
  congr 1
  · cases hfound : es.get? "paging" with
    | none =>
      rw [hfound] at hpaging
      exact (Option.some.inj hpaging).symm
    | some node =>
      rw [hfound] at hpaging
      exact pagingOf?_eq_some hpaging
  · cases hfound : es.get? "neo4j" with
    | none =>
      rw [hfound] at hconnection
      exact (Option.some.inj hconnection).symm
    | some node =>
      rw [hfound] at hconnection
      exact connectionOf?_eq_some hconnection

/-! ## Overrides -/

theorem withEnvironment_eq {es : Toml.Entries} {s : Settings} (h : ofEntries? es = some s)
    (env : Environment) : s.withEnvironment env = fromSources none none env es := by
  rw [ofEntries?_eq_some h]
  simp [withEnvironment, fromSources]

theorem withPageSizes_eq (defaultSize maxSize : Option UInt32) (env : Environment)
    (es : Toml.Entries) : (fromSources none none env es).withPageSizes defaultSize maxSize
      = fromSources defaultSize maxSize env es := by
  simp [withPageSizes, fromSources]

theorem checked_eq_ok {s t : Settings} : s.checked = .ok t ↔ s.Usable ∧ t = s := by
  unfold checked
  constructor
  · intro h
    split at h
    case isTrue => cases h
    case isFalse hmax =>
      split at h
      case isTrue => cases h
      case isFalse hdefault =>
        cases h
        exact ⟨⟨UInt32.not_lt.mp hdefault, UInt32.not_lt.mp hmax⟩, rfl⟩
  · rintro ⟨⟨hdefault, hmax⟩, rfl⟩
    rw [if_neg (UInt32.not_lt.mpr hmax), if_neg (UInt32.not_lt.mpr hdefault)]

/-- A page size in a variable counts exactly if it is a number of 32 bits between blanks. -/
theorem pageSizeFrom?_iff {env : Environment} {name : String} {n : Nat} :
    (pageSizeFrom? env name).map UInt32.toNat = some n ↔
      ∃ text, env name = some text
        ∧ Text.WritesUnsigned (Text.trim text).toList n ∧ n < 2 ^ 32 := by
  unfold pageSizeFrom?
  rcases env name with _ | text
  · simp
  · rw [Option.map_some, Option.bind_some, Text.unsigned32?_iff]
    simp

/-! ## Loading -/

theorem ofFile_eq_ok {refusal : Refusal} {path : String} {found : Except ReadFault ByteArray}
    {s : Settings} : ofFile refusal path found = .ok s ↔
      ∃ es, (found.toOption.bind String.fromUTF8?).bind Toml.Document.read? = some es
        ∧ ofEntries? es = some s := by
  rw [← Option.bind_eq_some_iff, Option.bind_assoc]
  cases found with
  | error cause => simp [ofFile, Except.bind, Except.toOption]
  | ok bytes =>
    cases htext : String.fromUTF8? bytes with
    | none => simp [ofFile, decodeFile, Except.bind, Except.toOption, htext]
    | some text =>
      have hread : (Toml.Document.read? text).bind ofEntries? = ofToml? text := rfl
      cases hsettings : ofToml? text <;>
        simp [ofFile, decodeFile, Except.bind, Except.toOption, htext, hread, hsettings]

/-- The settings before the environment has its say. -/
def fromFile (host : Host) (path : Option String) : Except SettingsFault Settings :=
  path.elim (.ok {}) fun path => ofFile host.refusal path (host.file path)

theorem fromFile_eq_ok {host : Host} {path : Option String} {s : Settings} :
    fromFile host path = .ok s ↔ ∃ es, host.document? path = some es ∧ ofEntries? es = some s := by
  cases path with
  | none =>
    have hempty : ofEntries? [] = some {} := rfl
    simp [fromFile, Host.document?, hempty]
  | some path => exact ofFile_eq_ok

theorem load_eq (host : Host) (path : Option String) :
    load host.env host.file host.refusal path
      = fromFile host path >>= fun base => (base.withEnvironment host.env).checked := by
  cases path <;> rfl

/-- Loading gives settings exactly if there is a document that reads as settings, and they are
usable with what the environment sets in place. -/
theorem load_eq_ok {host : Host} {path : Option String} {s : Settings} :
    load host.env host.file host.refusal path = .ok s ↔
      ∃ es, host.document? path = some es ∧ (ofEntries? es).isSome
        ∧ (fromSources none none host.env es).Usable ∧ s = fromSources none none host.env es := by
  rw [load_eq, bind_eq_ok]
  constructor
  · rintro ⟨base, hfile, hchecked⟩
    obtain ⟨es, hdocument, hsettings⟩ := fromFile_eq_ok.mp hfile
    rw [withEnvironment_eq hsettings, checked_eq_ok] at hchecked
    exact ⟨es, hdocument, Option.isSome_of_eq_some hsettings, hchecked⟩
  · rintro ⟨es, hdocument, hunderstood, hchecked⟩
    obtain ⟨base, hsettings⟩ := Option.isSome_iff_exists.mp hunderstood
    refine ⟨base, fromFile_eq_ok.mpr ⟨es, hdocument, hsettings⟩, ?_⟩
    rw [withEnvironment_eq hsettings, checked_eq_ok]
    exact hchecked

end Settings

/-! ## Runs -/

namespace Invocation

variable {i : Invocation} {host : Host} {out : String}

theorem run_eq_ok : i.run host = .ok out ↔ ∃ es, i.Succeeds host es out := by
  unfold run settings
  simp only [bind_eq_ok, mapError_eq_ok, Settings.load_eq_ok]
  constructor
  · rintro ⟨s, ⟨loaded, ⟨es, hdocument, hunderstood, hloaded, rfl⟩, hchecked⟩, hout⟩
    rw [Settings.withPageSizes_eq, Settings.checked_eq_ok] at hchecked
    obtain ⟨hoverridden, rfl⟩ := hchecked
    exact ⟨es, hdocument, hunderstood, hloaded, hoverridden, hout⟩
  · rintro ⟨es, h⟩
    refine ⟨i.effective host es, ⟨_, ⟨es, h.document, h.understood, h.loaded, rfl⟩, ?_⟩, ?_⟩
    · rw [Settings.withPageSizes_eq, Settings.checked_eq_ok]
      exact ⟨h.overridden, rfl⟩
    · exact h.output

end Invocation

/-- A run with a command line that reads ends well with the output, or it fails silently. -/
theorem run_of_parse {host : Host} {args : List String} {i : Invocation}
    (h : CommandLine.parse host.env args = .ok i) :
    (∃ out, i.run host = .ok out ∧ (run host args).exit = ⟨0, out ++ "\n", ""⟩)
    ∨ ((∀ out, i.run host ≠ .ok out)
      ∧ (run host args).exit.code ≠ 0 ∧ (run host args).exit.stdout = "") := by
  unfold run
  rw [h]
  dsimp only
  cases i.run host with
  | ok out => exact Or.inl ⟨out, rfl, rfl⟩
  | error failure => exact Or.inr ⟨fun _ => nofun, by simp [Outcome.exit]⟩

/-! ## Page sizes of a query -/

theorem Plan.ends_with_limit {p : Plan} {n : UInt64} (h : p.limit = some n) :
    ∃ front, p.render.cypher = front ++ "LIMIT " ++ toString n.toNat ++ "\n" := by
  have hline : p.limitLine? = some ("LIMIT " ++ toString n.toNat) := by
    unfold Plan.limitLine?
    rw [h, Option.map_some]
  unfold Plan.render Plan.lines
  dsimp only
  rw [hline, Text.ofLines_append, Option.toList_some, Text.ofLines, Text.ofLines_nil,
    String.append_empty, ← String.append_assoc, ← String.append_assoc]
  exact ⟨_, rfl⟩

/-- With a usable largest size, a search gives from one to that many results. -/
theorem Schema.limit_explore (s : Schema) (p : Paging) (h : 1 ≤ p.maxSize) (r : Request) :
    ∃ n : UInt64, (s.explore p r).limit = some n ∧ 1 ≤ n.toNat ∧ n.toNat ≤ p.maxSize.toNat := by
  refine ⟨(r.toSearch p).limit.toUInt64, rfl, ?_⟩
  rw [UInt32.toNat_toUInt64, Request.limit_toSearch]
  have hmax : 1 ≤ p.maxSize.toNat := h
  unfold Request.size
  simp only
  omega

/-! ## The law -/

/-- A command line that reads ends well exactly if there is a document, where a file is named,
that reads as settings, the page sizes are usable before and after the options have their say,
and the command has an output with the settings from the nearest sources; and then it prints
the output and a line feed. Otherwise it fails and prints nothing. A page size in a variable
counts exactly if it is a number of 32 bits between blanks, and a search that ends well prints
a query for at least one result and at most as many as the largest page has. -/
theorem the_nearest_source_decides {host : Host} {args : List String} {i : Invocation}
    (h : CommandLine.parse host.env args = .ok i) :
    (∀ text, ((run host args).exit.code = 0 ∧ (run host args).exit.stdout = text) ↔
      ∃ es out, i.Succeeds host es out ∧ text = out ++ "\n")
    ∧ ((∀ es out, ¬ i.Succeeds host es out) →
      (run host args).exit.code ≠ 0 ∧ (run host args).exit.stdout = "")
    ∧ (∀ name n, (Settings.pageSizeFrom? host.env name).map UInt32.toNat = some n ↔
      ∃ text, host.env name = some text
        ∧ Text.WritesUnsigned (Text.trim text).toList n ∧ n < 2 ^ 32)
    ∧ ∀ es out exploration, i.Succeeds host es out → i.command = .explore exploration →
      ∃ query front n,
        query = (Schema.retail.explore (i.effective host es).paging exploration.request).render
        ∧ out = query.print i.format
        ∧ query.cypher = front ++ "LIMIT " ++ toString n ++ "\n"
        ∧ 1 ≤ n ∧ n ≤ (i.effective host es).paging.maxSize.toNat := by
  refine ⟨?_, ?_, fun name n => Settings.pageSizeFrom?_iff, ?_⟩
  · intro text
    rcases run_of_parse h with ⟨out, hrun, hexit⟩ | ⟨hrun, hcode, _⟩
    · rw [hexit]
      constructor
      · rintro ⟨_, rfl⟩
        obtain ⟨es, hs⟩ := Invocation.run_eq_ok.mp hrun
        exact ⟨es, out, hs, rfl⟩
      · rintro ⟨es, out', hs, rfl⟩
        rw [Invocation.run_eq_ok.mpr ⟨es, hs⟩] at hrun
        obtain rfl := Except.ok.inj hrun
        exact ⟨rfl, rfl⟩
    · constructor
      · rintro ⟨hzero, _⟩
        exact absurd hzero hcode
      · rintro ⟨es, out, hs, _⟩
        exact absurd (Invocation.run_eq_ok.mpr ⟨es, hs⟩) (hrun out)
  · intro hnone
    rcases run_of_parse h with ⟨out, hrun, _⟩ | ⟨_, hsilent⟩
    · obtain ⟨es, hs⟩ := Invocation.run_eq_ok.mp hrun
      exact absurd hs (hnone es out)
    · exact hsilent
  · intro es out exploration hs hcommand
    obtain ⟨n, hlimit, hpos, hmax⟩ :=
      Schema.retail.limit_explore _ hs.overridden.maxSize exploration.request
    obtain ⟨front, hfront⟩ := Plan.ends_with_limit hlimit
    have hout := hs.output
    rw [hcommand, Command.run] at hout
    exact ⟨_, front, n.toNat, rfl, (Except.ok.inj hout).symm, hfront, hpos, hmax⟩

/-- A file gives one page size and a variable the other one; an option goes before the variable. -/
theorem an_option_goes_before_a_variable :
    ∃ (host : Host) (args : List String) (i : Invocation),
      CommandLine.parse host.env args = .ok i
        ∧ ∃ es out, i.Succeeds host es out ∧ (i.effective host es).paging.maxSize = 7
          ∧ ∃ query front n, out = Query.print query .json
            ∧ query.cypher = front ++ "LIMIT " ++ toString n ++ "\n" ∧ 1 ≤ n ∧ n ≤ 7 := by
  let host : Host :=
    { env := fun name => if name = "SHOPGRAPH_MAX_PAGE_SIZE" then some " 40 " else none
      file := Directory.read ⟨[("shop.toml", "[paging]\ndefault_page_size = 9\n".toUTF8)]⟩
      refusal := fun _ => ""
      notice := fun _ => "" }
  let args : List String := ["-C", "shop.toml", "--max-page-size", "7", "explore", "lamp"]
  let i : Invocation :=
    { command := .explore { keyword := some "lamp" }
      logLevel := none
      verbose := false
      config := some "shop.toml"
      defaultPageSize := none
      maxPageSize := some 7
      format := .json }
  have hparse : CommandLine.parse host.env args = .ok i := by decide +kernel
  have hcode : (run host args).exit.code = 0 := by decide +kernel
  obtain ⟨hends, _, _, hlimit⟩ := the_nearest_source_decides hparse
  obtain ⟨es, out, hs, _⟩ := (hends _).mp ⟨hcode, rfl⟩
  obtain ⟨query, front, n, _, hout, hfront, hpos, hmax⟩ := hlimit es out _ hs rfl
  exact ⟨host, args, i, hparse, es, out, hs, rfl, query, front, n, hout, hfront, hpos, hmax⟩

end ShopQuery
