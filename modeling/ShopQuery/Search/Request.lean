-- A search as it is asked for, text by text: words to search for, a filter for each label,
-- an expression to sort by, and a limit.
import ShopQuery.Label.Set

namespace ShopQuery

/-! ## Filters -/

/-- For each label the text of its filter, if it has one. -/
@[ext]
structure Filters where
  get? : Label → Option String

namespace Filters

def empty : Filters := ⟨fun _ => none⟩

def insert (f : Filters) (l : Label) (value : String) : Filters :=
  ⟨fun k => if k = l then some value else f.get? k⟩

def erase (f : Filters) (l : Label) : Filters := ⟨fun k => if k = l then none else f.get? k⟩

/-- The filters of a list of pairs; of two pairs with one label the later one counts. -/
def ofList (entries : List (Label × String)) : Filters :=
  entries.foldl (fun f e => f.insert e.1 e.2) empty

/-- The filters in the order of `Label.all`. -/
def toList (f : Filters) : List (Label × String) :=
  Label.all.filterMap fun l => (f.get? l).map fun value => (l, value)

@[simp] theorem get?_empty (k : Label) : empty.get? k = none := rfl

@[simp] theorem get?_insert (f : Filters) (l k : Label) (value : String) :
    (f.insert l value).get? k = if k = l then some value else f.get? k := rfl

@[simp] theorem get?_erase (f : Filters) (l k : Label) :
    (f.erase l).get? k = if k = l then none else f.get? k := rfl

/-- Two collections of filters are equal if they agree on every label. -/
instance : DecidableEq Filters := fun f g =>
  if h : Label.all.all fun l => f.get? l == g.get? l then
    isTrue (by
      ext1
      funext l
      simpa using List.all_eq_true.1 h l (Label.mem_all l))
  else isFalse fun e => h (by simp [e])

end Filters

/-! ## Requests -/

/-- A search as it is asked for. Each part may be missing, and a part that is empty is not
yet a part that is missing. -/
structure Request where
  keyword : Option String := none
  filters : Filters := .empty
  orderBy : Option String := none
  limit : Option String := none
  deriving DecidableEq

namespace Request

def withKeyword (r : Request) (text : String) : Request := { r with keyword := some text }

/-- The request with one filter more. A filter on the virtual label is the keyword. -/
def withFilter (r : Request) (l : Label) (text : String) : Request :=
  if l.isVirtual then r.withKeyword text else { r with filters := r.filters.insert l text }

def withOrderBy (r : Request) (expression : String) : Request :=
  { r with orderBy := some expression }

def withLimit (r : Request) (text : String) : Request := { r with limit := some text }

/-- A limit that is given as a number is kept as its decimal text. -/
def withLimitNumber (r : Request) (n : Int) : Request := r.withLimit (toString n)

end Request

end ShopQuery
