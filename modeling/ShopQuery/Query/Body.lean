-- The body of a query: its clauses in order, with a record of what they bind. The record is
-- kept while clauses are added, and the laws say that it always agrees with the clauses.
import ShopQuery.Query.Clause

namespace ShopQuery

/-- Clauses in order, with the labels and the relationship variables that they bind. -/
structure Body where
  clauses : List Clause := []
  bound : LabelSet := .empty
  /-- The relationship variables in the order of their clauses. -/
  vars : List String := []
  deriving DecidableEq

namespace Body

def empty : Body := {}

/-- The body with one clause more at its end. -/
def push (b : Body) (c : Clause) : Body :=
  { clauses := b.clauses ++ [c]
    bound := b.bound.insertMany c.labels
    vars := b.vars ++ c.vars }

/-- The body with the clauses of a list at its end. -/
def pushMany (b : Body) (cs : List Clause) : Body := cs.foldl push b

def ofList (cs : List Clause) : Body := empty.pushMany cs

/-- Some clause binds nodes with this label. -/
def binds (b : Body) (l : Label) : Bool := b.bound.contains l

def size (b : Body) : Nat := b.clauses.length

def isEmpty (b : Body) : Bool := b.clauses.isEmpty

/-! ## What the record says -/

theorem binds_push {b : Body} {c : Clause} {l : Label} :
    (b.push c).binds l = true ↔ b.binds l = true ∨ l ∈ c.labels := by
  unfold binds push
  rw [LabelSet.contains_insertMany, Bool.or_eq_true, List.contains_iff_mem, or_comm]

theorem pushMany_cons (b : Body) (c : Clause) (cs : List Clause) :
    b.pushMany (c :: cs) = (b.push c).pushMany cs := rfl

theorem pushMany_eq (b : Body) (cs : List Clause) : b.pushMany cs =
    { clauses := b.clauses ++ cs
      bound := b.bound.insertMany (cs.flatMap Clause.labels)
      vars := b.vars ++ cs.flatMap Clause.vars } := by
  induction cs generalizing b with
  | nil => simp [pushMany, LabelSet.insertMany]
  | cons c cs ih =>
    rw [pushMany_cons, ih]
    simp [push, LabelSet.insertMany]

@[simp] theorem clauses_pushMany (b : Body) (cs : List Clause) :
    (b.pushMany cs).clauses = b.clauses ++ cs := by rw [pushMany_eq]

@[simp] theorem vars_pushMany (b : Body) (cs : List Clause) :
    (b.pushMany cs).vars = b.vars ++ cs.flatMap Clause.vars := by rw [pushMany_eq]

@[simp] theorem binds_pushMany (b : Body) (cs : List Clause) (l : Label) :
    (b.pushMany cs).binds l = (b.binds l || (cs.flatMap Clause.labels).contains l) := by
  unfold binds
  rw [pushMany_eq, LabelSet.contains_insertMany, Bool.or_comm]

@[simp] theorem clauses_ofList (cs : List Clause) : (ofList cs).clauses = cs := by
  simp [ofList, empty]

@[simp] theorem vars_ofList (cs : List Clause) : (ofList cs).vars = cs.flatMap Clause.vars := by
  simp [ofList, empty]

@[simp] theorem binds_ofList (cs : List Clause) (l : Label) :
    (ofList cs).binds l = (cs.flatMap Clause.labels).contains l := by
  rw [ofList, binds_pushMany]
  simp [empty, binds]

end Body

end ShopQuery
