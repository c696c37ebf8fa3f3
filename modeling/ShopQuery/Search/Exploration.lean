-- The arguments of an exploring command, each of them a text or missing, and the request that
-- they make.
import ShopQuery.Search.Request

namespace ShopQuery

/-! ## Options -/

/-- The options that only an exploring command knows. -/
inductive Flag
  | limit
  | cancel
  | order
  | returned
  | shipment
  | storage
  | supplier
  | orderBy
  deriving DecidableEq, Repr

namespace Flag

def all : List Flag := [limit, cancel, order, returned, shipment, storage, supplier, orderBy]

def name : Flag → String
  | limit => "limit"
  | cancel => "cancel"
  | order => "order"
  | returned => "return"
  | shipment => "shipment"
  | storage => "storage"
  | supplier => "supplier"
  | orderBy => "order-by"

end Flag

/-! ## Arguments -/

/-- What the arguments of an exploring command say. -/
structure Exploration where
  keyword : Option String := none
  limit : Option String := none
  cancel : Option String := none
  order : Option String := none
  returned : Option String := none
  shipment : Option String := none
  storage : Option String := none
  supplier : Option String := none
  orderBy : Option String := none
  deriving DecidableEq

namespace Exploration

/-- The value of an option, if it was given. -/
def value? (e : Exploration) : Flag → Option String
  | .limit => e.limit
  | .cancel => e.cancel
  | .order => e.order
  | .returned => e.returned
  | .shipment => e.shipment
  | .storage => e.storage
  | .supplier => e.supplier
  | .orderBy => e.orderBy

def withKeyword (e : Exploration) (text : String) : Exploration := { e with keyword := some text }

def withValue (e : Exploration) (flag : Flag) (value : String) : Exploration :=
  match flag with
  | .limit => { e with limit := some value }
  | .cancel => { e with cancel := some value }
  | .order => { e with order := some value }
  | .returned => { e with returned := some value }
  | .shipment => { e with shipment := some value }
  | .storage => { e with storage := some value }
  | .supplier => { e with supplier := some value }
  | .orderBy => { e with orderBy := some value }

@[simp] theorem value?_withValue (e : Exploration) (flag other : Flag) (value : String) :
    (e.withValue flag value).value? other
      = if flag = other then some value else e.value? other := by
  cases flag <;> cases other <;> rfl

@[simp] theorem keyword_withValue (e : Exploration) (flag : Flag) (value : String) :
    (e.withValue flag value).keyword = e.keyword := by
  cases flag <;> rfl

@[simp] theorem keyword_withKeyword (e : Exploration) (text : String) :
    (e.withKeyword text).keyword = some text := rfl

@[simp] theorem value?_withKeyword (e : Exploration) (text : String) (flag : Flag) :
    (e.withKeyword text).value? flag = e.value? flag := by
  cases flag <;> rfl

/-- There is no more to an exploration than its words and the values of its options. -/
theorem eq_of_values {e f : Exploration} (hk : e.keyword = f.keyword)
    (hv : ∀ flag, e.value? flag = f.value? flag) : e = f := by
  have hlimit : e.limit = f.limit := hv .limit
  have hcancel : e.cancel = f.cancel := hv .cancel
  have horder : e.order = f.order := hv .order
  have hreturned : e.returned = f.returned := hv .returned
  have hshipment : e.shipment = f.shipment := hv .shipment
  have hstorage : e.storage = f.storage := hv .storage
  have hsupplier : e.supplier = f.supplier := hv .supplier
  have horderBy : e.orderBy = f.orderBy := hv .orderBy
  cases e
  cases f
  simp_all

/-! ## Requests -/

/-- The labels that options filter by, with the values of these options. -/
def filters (e : Exploration) : List (Label × Option String) :=
  [ (.cancel, e.cancel), (.order, e.order), (.returned, e.returned), (.shipment, e.shipment),
    (.storage, e.storage), (.supplier, e.supplier) ]

/-- The request that the arguments make. -/
def request (e : Exploration) : Request :=
  let r : Request := {}
  let r := e.keyword.elim r r.withKeyword
  let r := e.filters.foldl (fun r f => f.2.elim r (r.withFilter f.1)) r
  let r := e.orderBy.elim r r.withOrderBy
  e.limit.elim r r.withLimit

end Exploration

end ShopQuery
