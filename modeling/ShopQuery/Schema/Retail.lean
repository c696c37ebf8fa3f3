-- The schema of the retail graph: products with their orders, suppliers and storages, and
-- under an order its cancellation, return and shipment.
import ShopQuery.Schema.Basic

namespace ShopQuery

namespace Schema

def retailRelationships : List Relationship :=
  [ ⟨"IS_IN", "r0", .keyword, .product, .one .keyword, true⟩,
    ⟨"IS_SUPPLIED_BY", "r1", .product, .supplier, .one .supplier, false⟩,
    ⟨"CONTAINS", "r2", .order, .product, .one .order, false⟩,
    ⟨"IS_CANCELED_BY", "r3", .order, .cancel, .under .order .cancel, false⟩,
    ⟨"IS_RETURNED_BY", "r4", .order, .returned, .under .order .returned, false⟩,
    ⟨"IS_SHIPPED_BY", "r5", .order, .shipment, .under .order .shipment, false⟩,
    ⟨"STORES", "r6", .storage, .product, .one .storage, false⟩ ]

def retailKeys : List (Label × String) :=
  [ (.cancel, "rg_id"), (.order, "rs_id"), (.product, "product_id"), (.returned, "return_id"),
    (.shipment, "rm_id"), (.storage, "sl_id"), (.supplier, "supplier_id") ]

/-- The schema that every query uses unless another one is given. -/
def retail : Schema := ⟨retailRelationships, retailKeys⟩

/-- The retail tables have no fault. -/
theorem ofTables_retail : ofTables retailRelationships retailKeys = .ok retail := rfl

end Schema

end ShopQuery
