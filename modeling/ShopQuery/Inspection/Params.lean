-- Parameters: texts by name.
namespace ShopQuery

/-- Texts by name. Each name stands once in the list. -/
structure Params where
  entries : List (String × String) := []
  deriving DecidableEq, Repr

namespace Params

def get? (p : Params) (name : String) : Option String := p.entries.lookup name

/-- The parameters with a text under a name, in place of the one that was there. -/
def insert (p : Params) (name value : String) : Params :=
  ⟨(name, value) :: p.entries.filter (·.1 != name)⟩

/-- The parameters of a list of pairs; of two pairs with one name the later one counts. -/
def ofList (pairs : List (String × String)) : Params :=
  pairs.foldl (fun p e => p.insert e.1 e.2) {}

def toList (p : Params) : List (String × String) := p.entries

/-! ## Look-up -/

@[simp] theorem get?_empty (k : String) : get? {} k = none := rfl

/-- Dropping the entries under one name changes nothing under the others. -/
theorem lookup_filter_ne (es : List (String × String)) {name k : String} (h : k ≠ name) :
    (es.filter (·.1 != name)).lookup k = es.lookup k := by
  induction es with
  | nil => rfl
  | cons e es ih =>
    obtain ⟨n, v⟩ := e
    by_cases hn : n = name
    · have hk : (k == name) = false := by simpa using h
      simp [hn, List.lookup_cons, hk, ih]
    · simp [hn, List.lookup_cons, ih]

@[simp] theorem get?_insert (p : Params) (name k value : String) :
    (p.insert name value).get? k = if k = name then some value else p.get? k := by
  unfold insert get?
  by_cases h : k = name
  · simp [h]
  · have hk : (k == name) = false := by simpa using h
    simp [List.lookup_cons, hk, h, lookup_filter_ne]

end Params

end ShopQuery
