-- Settings as a TOML document gives them. What it does not mention keeps its default, and what
-- it mentions besides is passed over.
import ShopQuery.Settings
import ShopQuery.Toml.Document

namespace ShopQuery

open Toml (Entries Node Scalar)

/-! ## Values -/

namespace Toml

/-- A number that has a place in 128 bits, or in double precision. -/
def Scalar.isReadable : Scalar → Bool
  | .integer n => -(Nat.pow 2 127 : Int) ≤ n && n < (Nat.pow 2 128 : Int)
  | .float (some d) => d.isFinite
  | _ => true

mutual

/-- Every number inside the node is readable. -/
def Node.isReadable : Node → Bool
  | .scalar v => v.isReadable
  | .array items => itemsReadable items
  | .table _ es => entriesReadable es
  | .tables elements => elementsReadable elements

def itemsReadable : List Node → Bool
  | [] => true
  | n :: rest => n.isReadable && itemsReadable rest

def entriesReadable : List (String × Node) → Bool
  | [] => true
  | (_, n) :: rest => n.isReadable && entriesReadable rest

def elementsReadable : List (List (String × Node)) → Bool
  | [] => true
  | es :: rest => entriesReadable es && elementsReadable rest

end

/-- A whole number of 32 bits. -/
def Node.pageSize? : Node → Option UInt32
  | .scalar (.integer n) => Text.word32? n
  | _ => none

def Node.text? : Node → Option String
  | .scalar (.text s) => some s
  | _ => none

end Toml

/-! ## Sections -/

namespace Settings

/-- The values of the named fields of a section. A section is a table, or an array of its
fields in order; a date has no fields. -/
def fields? (names : List String) : Node → Option (List (Option Node))
  | .table _ es =>
    if es.all fun e => names.contains e.1 || e.2.isReadable then
      some (names.map (Entries.get? es))
    else none
  | .array items => some ((List.range names.length).map fun i => items[i]?)
  | .scalar .moment => some (names.map fun _ => none)
  | _ => none

/-- A field that may be missing. -/
def field? {α : Type} (read? : Node → Option α) (default : α) : Option Node → Option α
  | none => some default
  | some node => read? node

def pagingOf? (node : Node) : Option Paging := do
  match ← fields? ["default_page_size", "max_page_size"] node with
  | [defaultSize, maxSize] =>
    let base : Paging := {}
    return { defaultSize := ← field? Node.pageSize? base.defaultSize defaultSize
             maxSize := ← field? Node.pageSize? base.maxSize maxSize }
  | _ => none

def connectionOf? (node : Node) : Option Connection := do
  match ← fields? ["url", "username", "password"] node with
  | [url, username, password] =>
    let base : Connection := {}
    return { url := ← field? Node.text? base.url url
             username := ← field? Node.text? base.username username
             password := ← field? Node.text? base.password password }
  | _ => none

/-! ## Documents -/

/-- The settings that a document gives. -/
def ofEntries? (es : Entries) : Option Settings := do
  guard (es.all fun e => ["paging", "neo4j"].contains e.1 || e.2.isReadable)
  return { paging := ← field? pagingOf? {} (es.get? "paging")
           connection := ← field? connectionOf? {} (es.get? "neo4j") }

/-- The settings that the text of a document gives. -/
def ofToml? (s : String) : Option Settings := (Toml.Document.read? s).bind ofEntries?

/-! ## Loading -/

/-- What is said of a text that gives no settings. The words are those of its reader. -/
abbrev Refusal := String → String

/-- The settings that a file gives, from what was found when it was read. -/
def ofFile (refusal : Refusal) (path : String) (found : Except ReadFault ByteArray) :
    Except SettingsFault Settings :=
  match found.bind decodeFile with
  | .error cause => .error (.unreadable path cause)
  | .ok text =>
    match ofToml? text with
    | none => .error (.malformed path (refusal text))
    | some s => .ok s

/-- The settings of a file, if there is one, and of the environment. -/
def load (env : Environment) (file : String → Except ReadFault ByteArray) (refusal : Refusal)
    (path : Option String) : Except SettingsFault Settings := do
  let base ← match path with
    | none => .ok {}
    | some path => ofFile refusal path (file path)
  (base.withEnvironment env).checked

end Settings

end ShopQuery
