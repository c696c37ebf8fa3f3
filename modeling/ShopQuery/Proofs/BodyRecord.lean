-- The record that a body keeps of its clauses: the labels that they bind, and the variables of
-- their steps. Every clause that is added brings the record up to date, so after any number of
-- clauses it says what a reading of them says, and nothing else.
import Mathlib.Data.List.Basic
import ShopQuery.Query.Body

namespace ShopQuery

/-! ## What clauses bind -/

namespace Clause

/-- A node or a look-up binds its label, and a step both of its ends. A condition binds nothing. -/
inductive Binds : Clause → Label → Prop
  | node {label mode properties} : Binds (.node label mode properties) label
  | lookup {label key value} : Binds (.lookup label key value) label
  | source {step} : Binds (.traversal step) step.source
  | target {step} : Binds (.traversal step) step.target

theorem mem_labels_iff {c : Clause} {l : Label} : l ∈ c.labels ↔ c.Binds l := by
  constructor
  · intro h
    cases c with
    | node label mode properties =>
      obtain rfl := List.mem_singleton.mp h
      exact .node
    | lookup label key value =>
      obtain rfl := List.mem_singleton.mp h
      exact .lookup
    | contains label property needle => cases h
    | traversal step =>
      rcases List.mem_pair.mp h with rfl | rfl
      · exact .source
      · exact .target
  · intro h
    cases h with
    | node => exact List.mem_singleton_self _
    | lookup => exact List.mem_singleton_self _
    | source => exact List.mem_cons_self
    | target => exact List.mem_cons_of_mem _ List.mem_cons_self

def step? : Clause → Option Traversal
  | traversal step => some step
  | _ => none

theorem vars_eq (c : Clause) : c.vars = c.step?.toList.map (·.var) := by
  cases c <;> rfl

end Clause

/-- Some clause binds the label. -/
def BoundBy (cs : List Clause) (l : Label) : Prop := ∃ c ∈ cs, c.Binds l

/-- The steps among some clauses, each as often as it stands there. -/
def steps (cs : List Clause) : List Traversal := cs.filterMap Clause.step?

theorem boundBy_concat {cs : List Clause} {c : Clause} {l : Label} :
    BoundBy (cs ++ [c]) l ↔ BoundBy cs l ∨ c.Binds l := by
  simp [BoundBy, or_and_right, exists_or]

theorem steps_concat (cs : List Clause) (c : Clause) :
    steps (cs ++ [c]) = steps cs ++ c.step?.toList := by
  unfold steps
  rw [List.filterMap_append]
  cases c <;> rfl

/-! ## The record -/

namespace Body

/-- The body holds these clauses in this order, and its record is right: the labels that it knows
are those that some clause binds, and its variables are those of the steps, one for each. -/
structure Agrees (b : Body) (cs : List Clause) : Prop where
  clauses : b.clauses = cs
  bound : ∀ l, b.binds l = true ↔ BoundBy cs l
  vars : b.vars = (steps cs).map (·.var)

theorem agrees_empty : empty.Agrees [] where
  clauses := rfl
  bound l := by simp [empty, binds, BoundBy]
  vars := rfl

namespace Agrees

variable {b b' : Body} {cs : List Clause}

/-- A clause that is added keeps the record right. -/
theorem push (h : b.Agrees cs) (c : Clause) : (b.push c).Agrees (cs ++ [c]) where
  clauses := congrArg (· ++ [c]) h.clauses
  bound l := by rw [binds_push, boundBy_concat, h.bound, Clause.mem_labels_iff]
  vars := by
    have hpush : (b.push c).vars = b.vars ++ c.vars := rfl
    rw [hpush, h.vars, steps_concat, List.map_append, Clause.vars_eq]

theorem pushMany (h : b.Agrees cs) (ds : List Clause) : (b.pushMany ds).Agrees (cs ++ ds) := by
  -- On the clauses that are still to come; those that came before are any at all.
  induction ds generalizing b cs with
  | nil => rwa [List.append_nil]
  | cons c ds ih =>
    have hall := ih (h.push c)
    rwa [List.append_assoc, List.singleton_append] at hall

/-- Clauses have only one right record. -/
theorem eq (h : b.Agrees cs) (h' : b'.Agrees cs) : b = b' := by
  have hclauses := h.clauses.trans h'.clauses.symm
  have hvars := h.vars.trans h'.vars.symm
  have hbound : b.bound = b'.bound := by
    ext l
    exact Bool.eq_iff_iff.mpr ((h.bound l).trans (h'.bound l).symm)
  cases b
  cases b'
  rw [Body.mk.injEq]
  exact ⟨hclauses, hbound, hvars⟩

end Agrees

theorem agrees_ofList (cs : List Clause) : (ofList cs).Agrees cs := agrees_empty.pushMany cs

theorem agrees_iff {b : Body} {cs : List Clause} : b.Agrees cs ↔ b = ofList cs := by
  constructor
  · intro h
    exact h.eq (agrees_ofList cs)
  · rintro rfl
    exact agrees_ofList cs

end Body

/-! ## Steps along relationships -/

namespace Relationship

theorem mode_traversal_of_stored {r : Relationship} (h : r.isVirtual = false) (mode : Mode) :
    (r.traversal mode).mode = mode := by
  unfold traversal
  rw [h]
  rfl

theorem made_traversal_iff (r : Relationship) (mode : Mode) :
    (r.traversal mode).mode = .made ↔ r.isVirtual = true ∨ mode = .made := by
  cases hv : r.isVirtual with
  | true => simp [traversal, hv]
  | false => simp [mode_traversal_of_stored hv]

end Relationship

/-! ## The law -/

/-- While clauses are added to an empty body, one by one, the body after each of them is the only
one whose clauses and record agree with those added so far, and the last is the body of them all.
A step along a relationship is made exactly if the relationship is virtual or the step was to be
made; any other step comes as it was to be. -/
theorem a_body_records_what_its_clauses_bind (calls : List Clause) :
    (∀ n ≤ calls.length, ∃ b, (calls.scanl Body.push .empty)[n]? = some b
      ∧ ∀ other : Body, other.Agrees (calls.take n) ↔ other = b)
    ∧ (calls.scanl Body.push .empty).getLast? = some (.ofList calls)
    ∧ ∀ (r : Relationship) (mode : Mode),
      ((r.traversal mode).mode = .made ↔ r.isVirtual = true ∨ mode = .made)
      ∧ (r.isVirtual = false → (r.traversal mode).mode = mode) := by
  refine ⟨?_, List.getLast?_scanl, ?_⟩
  · intro n hn
    refine ⟨.ofList (calls.take n), ?_, fun other => Body.agrees_iff⟩
    rw [List.getElem?_scanl, if_pos hn]
    rfl
  · intro r mode
    exact ⟨r.made_traversal_iff mode, fun hr => Relationship.mode_traversal_of_stored hr mode⟩

/-- Stores are reached twice along one relationship, which the record says twice. The order that
is looked up last is not bound before. -/
theorem a_step_taken_twice_is_recorded_twice :
    let stores : Relationship := ⟨"STORES", "r6", .storage, .product, .one .storage, false⟩
    let calls : List Clause :=
      [ .node .product .required [],
        .traversal (stores.traversal .optional),
        .contains .product "product_name" (.text "lamp"),
        .traversal (stores.traversal .required),
        .lookup .order "rs_id" (.number "42") ]
    4 ≤ calls.length ∧ stores.isVirtual = false
      ∧ (∃ b, (calls.scanl Body.push .empty)[4]? = some b ∧ b.clauses = calls.take 4
        ∧ b.vars = ["r6", "r6"] ∧ b.binds .storage = true ∧ b.binds .order = false)
      ∧ (stores.traversal .required).mode = .required := by
  intro stores calls
  obtain ⟨hsofar, _, hmode⟩ := a_body_records_what_its_clauses_bind calls
  obtain ⟨b, hb, honly⟩ := hsofar 4 (by decide)
  obtain rfl := (honly (.ofList (calls.take 4))).mp (Body.agrees_ofList _)
  exact ⟨by decide, rfl, ⟨_, hb, by decide, by decide, by decide, by decide⟩,
    (hmode stores .required).2 rfl⟩

end ShopQuery
