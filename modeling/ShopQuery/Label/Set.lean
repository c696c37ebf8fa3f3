-- Sets of labels. Two sets with the same members are equal, and a set lists its members in
-- the order of `Label.all`, however it was built.
import ShopQuery.Label

namespace ShopQuery

/-- A set of labels, given by its members. -/
@[ext]
structure LabelSet where
  contains : Label → Bool

namespace LabelSet

def empty : LabelSet := ⟨fun _ => false⟩

/-- The set with one label more. -/
def insert (s : LabelSet) (l : Label) : LabelSet := ⟨fun k => decide (k = l) || s.contains k⟩

/-- Whether the label was in the set before, and the set with it. -/
def containsThenInsert (s : LabelSet) (l : Label) : Bool × LabelSet := (s.contains l, s.insert l)

/-- The set with all labels of a list added. -/
def insertMany (s : LabelSet) (ls : List Label) : LabelSet := ls.foldl insert s

def ofList (ls : List Label) : LabelSet := ⟨fun k => ls.contains k⟩

/-- The members in the order of `Label.all`. -/
def toList (s : LabelSet) : List Label := Label.all.filter s.contains

def size (s : LabelSet) : Nat := s.toList.length

def isEmpty (s : LabelSet) : Bool := s.toList.isEmpty

/-! ## Members -/

@[simp] theorem contains_empty (k : Label) : empty.contains k = false := rfl

@[simp] theorem contains_insert (s : LabelSet) (l k : Label) :
    (s.insert l).contains k = (decide (k = l) || s.contains k) := rfl

@[simp] theorem contains_insertMany (s : LabelSet) (ls : List Label) (k : Label) :
    (s.insertMany ls).contains k = (ls.contains k || s.contains k) := by
  induction ls generalizing s with
  | nil => simp [insertMany]
  | cons l ls ih =>
    have h := ih (s.insert l)
    simp only [insertMany, List.foldl_cons] at h ⊢
    rw [h]
    simp [Bool.or_assoc, Bool.or_left_comm]

@[simp] theorem contains_ofList (ls : List Label) (k : Label) :
    (ofList ls).contains k = ls.contains k := rfl

@[simp] theorem mem_toList (s : LabelSet) (k : Label) : k ∈ s.toList ↔ s.contains k = true := by
  simp [toList, Label.mem_all]

/-! ## Equality -/

/-- Two sets are equal if they agree on every label. -/
instance : DecidableEq LabelSet := fun s t =>
  if h : Label.all.all fun l => s.contains l == t.contains l then
    isTrue (by
      ext l
      simpa using List.all_eq_true.1 h l (Label.mem_all l))
  else isFalse fun e => h (by simp [e])

end LabelSet

end ShopQuery
