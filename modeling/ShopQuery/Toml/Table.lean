-- Tables and how they grow: by an entry with a dotted key, by a header, and by a further
-- element of an array of tables. A table is open to some ways of growing and closed to others,
-- which depends on how it came about.
import ShopQuery.Toml.Scalar

namespace ShopQuery.Toml

/-! ## Values -/

/-- How a table came about. -/
inductive Origin
  /-- By a header of a table inside it. -/
  | implied
  /-- By a dotted key. -/
  | dotted
  /-- By a header of its own. -/
  | header
  /-- Between braces: it is complete where it is written. -/
  | inline
  deriving DecidableEq, Repr

/-- A value, a table or an array of tables. -/
inductive Node
  | scalar (value : Scalar)
  | array (items : List Node)
  | table (origin : Origin) (entries : List (String × Node))
  /-- Tables with headers of their own, latest first. -/
  | tables (elements : List (List (String × Node)))
  deriving Inhabited, Repr

/-- The entries of a table. No key stands twice. -/
abbrev Entries := List (String × Node)

namespace Entries

def get? (es : Entries) (key : String) : Option Node := es.lookup key

/-- Put another node, or a first one, under a key. -/
def alter? (f : Option Node → Option Node) (key : String) : Entries → Option Entries
  | [] => (f none).map fun node => [(key, node)]
  | (k, node) :: rest =>
    if k == key then (f (some node)).map fun node => (k, node) :: rest
    else (alter? f key rest).map fun rest => (k, node) :: rest

/-! ## Entries -/

/-- Add a value under a dotted key. The tables on the way are made, or have come from dotted
keys or from headers further in; the last one of them has come from a dotted key. -/
def insert? (value : Node) : List String → Entries → Option Entries
  | [] => fun _ => none
  | [key] => alter? (fun old => if old.isSome then none else some value) key
  | key :: path =>
    alter? (fun
      | none => (insert? value path []).map (.table .dotted)
      | some (.table .dotted es) => (insert? value path es).map (.table .dotted)
      | some (.table .implied es) =>
        if path.length == 1 then none else (insert? value path es).map (.table .implied)
      | some (.tables (es :: earlier)) =>
        if path.length == 1 then none
        else (insert? value path es).map fun es => .tables (es :: earlier)
      | _ => none) key

/-! ## Headers -/

/-- Change the entries inside a node: those of a table that is not complete, or those of the
latest of several tables. A missing table is made. -/
def within? (f : Entries → Option Entries) : Option Node → Option Node
  | none => (f []).map (.table .implied)
  | some (.table .inline _) => none
  | some (.table origin es) => (f es).map (.table origin)
  | some (.tables (es :: earlier)) => (f es).map fun es => .tables (es :: earlier)
  | some _ => none

/-- Change the entries at the end of a path. -/
def walk? (f : Entries → Option Entries) : List String → Entries → Option Entries
  | [] => f
  | key :: path => alter? (within? (walk? f path)) key

/-- What a header makes of the node that it names: a table may have one header. -/
def openHeader? : Option Node → Option Node
  | none => some (.table .header [])
  | some (.table .implied es) => some (.table .header es)
  | some _ => none

/-- What the header of an element makes of the node that it names. -/
def openElement? : Option Node → Option Node
  | none => some (.tables [[]])
  | some (.tables elements) => some (.tables ([] :: elements))
  | some _ => none

/-- Apply a header to the node at a path. -/
def open? (f : Option Node → Option Node) (path : List String) (es : Entries) : Option Entries :=
  match path.getLast? with
  | none => none
  | some key => walk? (alter? f key) path.dropLast es

end Entries

end ShopQuery.Toml
