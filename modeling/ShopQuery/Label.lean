-- The labels of the shop graph. Seven of them name stored nodes; the eighth stands for the
-- words of a search and is never stored.
namespace ShopQuery

/-- What a node of the shop graph stands for. -/
inductive Label
  | cancel
  | order
  | product
  | returned
  | shipment
  | storage
  | supplier
  | keyword
  deriving DecidableEq, Repr

namespace Label

/-! ## Names -/

/-- Every label once, in the order in which labels are listed. -/
def all : List Label :=
  [cancel, order, product, returned, shipment, storage, supplier, keyword]

/-- Every label once, in the order in which a query returns its nodes. -/
def inReturnOrder : List Label :=
  [product, order, supplier, cancel, returned, shipment, storage, keyword]

/-- The label as a query spells it. -/
def name : Label → String
  | cancel => "Cancel"
  | order => "Order"
  | product => "Product"
  | returned => "Return"
  | shipment => "Shipment"
  | storage => "Storage"
  | supplier => "Supplier"
  | keyword => "Keyword"

/-- The variable that stands for a node with this label. -/
def var : Label → String
  | cancel => "cancel"
  | order => "order"
  | product => "product"
  | returned => "return"
  | shipment => "shipment"
  | storage => "storage"
  | supplier => "supplier"
  | keyword => "keyword"

/-- The node is made from the request and never stored. -/
def isVirtual (l : Label) : Bool := l == keyword

/-- The place of the label among the nodes that a query returns. -/
def rank (l : Label) : Nat := inReturnOrder.idxOf l

theorem mem_all (l : Label) : l ∈ all := by cases l <;> decide

theorem mem_inReturnOrder (l : Label) : l ∈ inReturnOrder := by cases l <;> decide

/-- Two labels never share a variable. -/
theorem var_injective {l k : Label} (h : l.var = k.var) : l = k := by
  revert h
  cases l <;> cases k <;> decide

/-! ## Reading -/

/-- The label with exactly this name. -/
def ofName? (s : String) : Option Label := all.find? fun l => l.name == s

/-- The characters of a text, with ASCII letters in lower case. -/
def foldCase (s : String) : List Char := s.toList.map Char.toLower

/-- The label whose name differs from the text in the case of ASCII letters at most. -/
def ofSpelling? (s : String) : Option Label := all.find? fun l => foldCase l.name == foldCase s

@[simp] theorem ofName?_name (l : Label) : ofName? l.name = some l := by cases l <;> decide

end Label

end ShopQuery
