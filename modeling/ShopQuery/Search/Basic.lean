-- The search that a request amounts to, once its texts are quotable and its gaps are filled.
-- Every request amounts to one: what makes no sense in it is taken for missing.
import ShopQuery.Search.Paging
import ShopQuery.Search.Request
import ShopQuery.Text.Quotable

namespace ShopQuery

/-- What a request asks for. -/
structure Search where
  /-- The words searched for, not empty. -/
  keyword : Option String
  /-- The labels asked for, the virtual one among them when there is a keyword. -/
  asked : LabelSet
  /-- The expression that sorts the results. -/
  orderBy : Option String
  limit : UInt32
  deriving DecidableEq

/-! ## Sorting -/

/-- The name of the number of orders, by which results are sorted by default. -/
def orderCount : String := "order_count"

/-- The expression that sorts the results when a request does not say. -/
def defaultOrder : String := "order_count DESC"

/-- The results are sorted by an expression that begins with the number of orders. -/
def Search.sortsByCount (s : Search) : Bool :=
  s.orderBy.any fun e => orderCount.toList.isPrefixOf e.toList

namespace Request

/-- The sort expression of a request that asks for some labels. An empty expression sorts
nothing. The default one is left out where the number of orders is unknown, since counting
takes a keyword and orders. -/
def sortFor (orderBy : Option String) (asked : LabelSet) : Option String :=
  let expression := match orderBy with
    | some text => Text.trim (Text.quotable text)
    | none => defaultOrder
  if expression.isEmpty then none
  else if expression == defaultOrder && !(asked.contains .keyword && asked.contains .order) then
    none
  else some expression

/-! ## Searches -/

/-- The labels asked for: each stored label whose filter has a quotable part, and the virtual
label when there is a keyword. -/
def asked (r : Request) : LabelSet :=
  ⟨fun l =>
    if l.isVirtual then (r.keyword.bind Text.quotable?).isSome
    else ((r.filters.get? l).bind Text.quotable?).isSome⟩

/-- The search that the request amounts to. -/
def toSearch (r : Request) (paging : Paging) : Search :=
  { keyword := r.keyword.bind Text.quotable?
    asked := r.asked
    orderBy := sortFor r.orderBy r.asked
    limit := paging.sizeFor r.limit }

end Request

end ShopQuery
