-- TOML documents: from the text to the table that its statements make.
import ShopQuery.Toml.Statement

namespace ShopQuery.Toml

/-- The table of a document so far, and the path of the table that entries go to. -/
structure Document where
  root : Entries := []
  current : List String := []

namespace Document

/-- One statement more. -/
def advance? (d : Document) : Statement → Option Document
  | .header path => (d.root.open? Entries.openHeader? path).map fun root => ⟨root, path⟩
  | .element path => (d.root.open? Entries.openElement? path).map fun root => ⟨root, path⟩
  | .entry path value =>
    (d.root.walk? (Entries.insert? value path) d.current).map fun root => { d with root }

/-- The table that the statements make. -/
def ofStatements? (statements : List Statement) : Option Entries :=
  (statements.foldlM advance? {}).map root

/-- The table of a text. A byte order mark may stand in front of it. -/
def read? (s : String) : Option Entries := do
  let chars := match s.toList with
    | '\ufeff' :: rest => rest
    | chars => chars
  ofStatements? (← Statement.ofTokens? (← tokens? chars))

end Document

end ShopQuery.Toml
