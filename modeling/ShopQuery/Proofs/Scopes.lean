-- The variables of a query, bound clause by clause. A walk over the clauses keeps what is
-- bound so far and stops at a clause that uses what is not there or binds what is. A body that
-- can be walked to its end returns each variable that it binds exactly once.
import Mathlib.Data.List.Nodup
import ShopQuery.Search.Returned

namespace ShopQuery

/-! ## The walk -/

/-- The variables that are bound so far. -/
structure Scope where
  nodes : List String := []
  steps : List String := []
  deriving DecidableEq

namespace Scope

def vars (s : Scope) : List String := s.nodes ++ s.steps

/-- The scope with one node more, whose variable has to be new. -/
def withNode? (s : Scope) (v : String) : Option Scope :=
  if v ∈ s.vars then none else some { s with nodes := s.nodes ++ [v] }

/-- The scope with one relationship more, whose variable has to be new. -/
def withStep? (s : Scope) (v : String) : Option Scope :=
  if v ∈ s.vars then none else some { s with steps := s.steps ++ [v] }

/-- The scope after a relationship. One that is made joins two nodes that are there. One that
is matched leads from a node that is there to one that is new, in one direction or the other. -/
def along? (s : Scope) (t : Traversal) : Option Scope :=
  match t.mode with
  | .required => none
  | .made =>
    if t.source.var ∈ s.nodes ∧ t.target.var ∈ s.nodes then s.withStep? t.var else none
  | .optional =>
    if t.source.var ∈ s.nodes then (s.withNode? t.target.var).bind (·.withStep? t.var)
    else if t.target.var ∈ s.nodes then (s.withNode? t.source.var).bind (·.withStep? t.var)
    else none

/-- The scope after one clause. A node is new, and a condition is about a node that is there. -/
def after? (s : Scope) : Clause → Option Scope
  | .node l _ _ => s.withNode? l.var
  | .contains l _ _ => if l.var ∈ s.nodes then some s else none
  | .lookup _ _ _ => none
  | .traversal t => s.along? t

/-- The scope after the clauses of a list, taken in order. -/
def walk? (s : Scope) : List Clause → Option Scope
  | [] => some s
  | c :: cs => (s.after? c).bind (·.walk? cs)

theorem walk?_append (s : Scope) (cs ds : List Clause) :
    s.walk? (cs ++ ds) = (s.walk? cs).bind (·.walk? ds) := by
  induction cs generalizing s with
  | nil => rfl
  | cons c cs ih =>
    rw [List.cons_append, walk?, walk?]
    rcases s.after? c with _ | t
    · rfl
    · exact ih t

/-! ## One clause -/

theorem withNode?_eq_some {s t : Scope} {v : String} :
    s.withNode? v = some t ↔ v ∉ s.vars ∧ t = { s with nodes := s.nodes ++ [v] } := by
  unfold withNode?
  by_cases h : v ∈ s.vars
  · simp [h]
  · simp [h, eq_comm]

theorem withStep?_eq_some {s t : Scope} {v : String} :
    s.withStep? v = some t ↔ v ∉ s.vars ∧ t = { s with steps := s.steps ++ [v] } := by
  unfold withStep?
  by_cases h : v ∈ s.vars
  · simp [h]
  · simp [h, eq_comm]

theorem nodup_withNode? {s t : Scope} {v : String} (h : s.withNode? v = some t)
    (hs : s.vars.Nodup) : t.vars.Nodup := by
  obtain ⟨hv, rfl⟩ := withNode?_eq_some.mp h
  unfold vars at hv hs ⊢
  rw [List.append_assoc, List.singleton_append, List.nodup_middle]
  exact List.nodup_cons.mpr ⟨hv, hs⟩

theorem nodup_withStep? {s t : Scope} {v : String} (h : s.withStep? v = some t)
    (hs : s.vars.Nodup) : t.vars.Nodup := by
  obtain ⟨hv, rfl⟩ := withStep?_eq_some.mp h
  unfold vars at hv hs ⊢
  rw [← List.append_assoc, ← List.concat_eq_append]
  exact hs.concat hv

theorem withBoth?_spec {s t : Scope} {v w : String}
    (h : (s.withNode? v).bind (·.withStep? w) = some t) :
    t.nodes = s.nodes ++ [v] ∧ t.steps = s.steps ++ [w] ∧ (s.vars.Nodup → t.vars.Nodup) := by
  obtain ⟨u, hu, ht⟩ := Option.bind_eq_some_iff.mp h
  refine ⟨?_, ?_, fun hs => nodup_withStep? ht (nodup_withNode? hu hs)⟩
  all_goals
    obtain ⟨_, rfl⟩ := withNode?_eq_some.mp hu
    obtain ⟨_, rfl⟩ := withStep?_eq_some.mp ht
    rfl

theorem along?_of_made {s : Scope} {t : Traversal} (hm : t.mode = .made)
    (hs : t.source.var ∈ s.nodes) (ht : t.target.var ∈ s.nodes) :
    s.along? t = s.withStep? t.var := by
  unfold along?
  rw [hm]
  exact if_pos ⟨hs, ht⟩

theorem along?_of_source {s : Scope} {t : Traversal} (hm : t.mode = .optional)
    (hs : t.source.var ∈ s.nodes) :
    s.along? t = (s.withNode? t.target.var).bind (·.withStep? t.var) := by
  unfold along?
  rw [hm]
  exact if_pos hs

theorem along?_of_target {s : Scope} {t : Traversal} (hm : t.mode = .optional)
    (hs : t.source.var ∉ s.nodes) (ht : t.target.var ∈ s.nodes) :
    s.along? t = (s.withNode? t.source.var).bind (·.withStep? t.var) := by
  unfold along?
  rw [hm]
  exact (if_neg hs).trans (if_pos ht)

theorem mem_or_eq_or {nodes : List String} {x : String} (hx : x ∈ nodes) (v : String) (P : Prop) :
    (v ∈ nodes ∨ v = x ∨ P) ↔ (v ∈ nodes ∨ P) := by
  constructor
  · rintro (hv | rfl | hp)
    · exact Or.inl hv
    · exact Or.inl hx
    · exact Or.inr hp
  · rintro (hv | hp)
    · exact Or.inl hv
    · exact Or.inr (Or.inr hp)

/-- Both ends of a relationship are bound after it, whichever was there before. -/
theorem along?_spec {s t : Scope} {step : Traversal} (h : s.along? step = some t) :
    (∀ v, v ∈ t.nodes ↔ v ∈ s.nodes ∨ v = step.source.var ∨ v = step.target.var)
    ∧ t.steps = s.steps ++ [step.var] ∧ (s.vars.Nodup → t.vars.Nodup) := by
  unfold along? at h
  split at h
  case h_1 => cases h
  case h_2 =>
    split at h
    case isTrue hends =>
      refine ⟨?_, ?_, nodup_withStep? h⟩
      all_goals obtain ⟨_, rfl⟩ := withStep?_eq_some.mp h
      · intro v
        rw [mem_or_eq_or hends.1]
        exact (or_iff_left_of_imp fun hv => hv ▸ hends.2).symm
      · rfl
    case isFalse => cases h
  case h_3 =>
    split at h
    case isTrue hsource =>
      obtain ⟨hnodes, hsteps, hnodup⟩ := withBoth?_spec h
      refine ⟨fun v => ?_, hsteps, hnodup⟩
      rw [hnodes, List.mem_append, List.mem_singleton, mem_or_eq_or hsource]
    case isFalse =>
      split at h
      case isTrue htarget =>
        obtain ⟨hnodes, hsteps, hnodup⟩ := withBoth?_spec h
        refine ⟨fun v => ?_, hsteps, hnodup⟩
        rw [hnodes, List.mem_append, List.mem_singleton, or_comm (a := v = step.source.var),
          mem_or_eq_or htarget]
      case isFalse => cases h

/-- A clause binds its own variables, no other ones, and none that was bound before. -/
theorem after?_spec {s t : Scope} {c : Clause} (h : s.after? c = some t) :
    (∀ v, v ∈ t.nodes ↔ v ∈ s.nodes ∨ ∃ l ∈ c.labels, l.var = v)
    ∧ t.steps = s.steps ++ c.vars ∧ (s.vars.Nodup → t.vars.Nodup) := by
  cases c with
  | node l mode properties =>
    refine ⟨?_, ?_, nodup_withNode? h⟩
    all_goals obtain ⟨_, rfl⟩ := withNode?_eq_some.mp h
    · intro v
      simp [Clause.labels, eq_comm]
    · exact (List.append_nil _).symm
  | contains l property needle =>
    have hthere : (if l.var ∈ s.nodes then some s else none) = some t := h
    split at hthere
    · cases hthere
      refine ⟨fun v => ?_, (List.append_nil _).symm, id⟩
      simp [Clause.labels]
    · cases hthere
  | lookup l key value => cases h
  | traversal step =>
    obtain ⟨hnodes, hsteps, hnodup⟩ := along?_spec h
    refine ⟨fun v => ?_, hsteps, hnodup⟩
    rw [hnodes]
    simp [Clause.labels, eq_comm]

end Scope

/-! ## One variable for one thing -/

/-- No variable stands for two relationships, or for a relationship and a node. -/
structure Body.Unambiguous (b : Body) : Prop where
  steps : b.vars.Nodup
  nodes : ∀ l, b.binds l = true → l.var ∉ b.vars

namespace Body

theorem mem_nodeVars (b : Body) (v : String) :
    v ∈ (Label.inReturnOrder.filter b.binds).map Label.var ↔
      ∃ l, b.binds l = true ∧ l.var = v := by
  simp [Label.mem_inReturnOrder]

/-- A variable is returned twice exactly if it stands for two things. -/
theorem nodup_returnedVars_iff (b : Body) : b.returnedVars.Nodup ↔ b.Unambiguous := by
  have horder : Label.inReturnOrder.Nodup := by decide
  have hnodes : ((Label.inReturnOrder.filter b.binds).map Label.var).Nodup :=
    (horder.filter _).map fun _ _ => Label.var_injective
  have hsteps : (b.vars.mergeSort fun x y => decide (x ≤ y)).Nodup ↔ b.vars.Nodup :=
    (List.mergeSort_perm _ _).nodup_iff
  unfold returnedVars
  rw [List.nodup_append, hsteps]
  constructor
  · rintro ⟨_, hvars, hapart⟩
    refine ⟨hvars, fun l hl hmem => ?_⟩
    exact hapart _ ((b.mem_nodeVars _).mpr ⟨l, hl, rfl⟩) _ (List.mem_mergeSort.mpr hmem) rfl
  · rintro ⟨hvars, hapart⟩
    refine ⟨hnodes, hvars, fun v hv w hw hvw => ?_⟩
    obtain ⟨l, hl, rfl⟩ := (b.mem_nodeVars v).mp hv
    rw [List.mem_mergeSort, ← hvw] at hw
    exact hapart l hl hw

end Body

/-! ## The record of a body -/

/-- The record of a body says what a walk over its clauses has bound. -/
structure Records (s : Scope) (b : Body) : Prop where
  nodes : ∀ v, v ∈ s.nodes ↔ ∃ l, b.binds l = true ∧ l.var = v
  steps : s.steps = b.vars
  nodup : s.vars.Nodup

namespace Records

theorem empty : Records {} .empty := by
  constructor
  · intro v
    constructor
    · intro hv
      cases hv
    · rintro ⟨l, hl, _⟩
      cases hl
  · rfl
  · exact List.nodup_nil

theorem after {s t : Scope} {b : Body} {c : Clause} (h : Records s b) (ht : s.after? c = some t) :
    Records t (b.push c) := by
  obtain ⟨hnodes, hsteps, hnodup⟩ := Scope.after?_spec ht
  constructor
  · intro v
    rw [hnodes, h.nodes]
    simp only [Body.binds_push]
    constructor
    · rintro (⟨l, hl, hv⟩ | ⟨l, hl, hv⟩)
      · exact ⟨l, Or.inl hl, hv⟩
      · exact ⟨l, Or.inr hl, hv⟩
    · rintro ⟨l, hl | hl, hv⟩
      · exact Or.inl ⟨l, hl, hv⟩
      · exact Or.inr ⟨l, hl, hv⟩
  · rw [hsteps, h.steps]
    rfl
  · exact hnodup h.nodup

theorem walk {s t : Scope} {b : Body} {cs : List Clause} (h : Records s b)
    (ht : s.walk? cs = some t) : Records t (b.pushMany cs) := by
  induction cs generalizing s b with
  | nil =>
    cases ht
    exact h
  | cons c cs ih =>
    rw [Scope.walk?] at ht
    obtain ⟨u, hu, ht⟩ := Option.bind_eq_some_iff.mp ht
    exact ih (h.after hu) ht

/-! ## What is returned -/

theorem mem_returnedVars {s : Scope} {b : Body} (h : Records s b) (v : String) :
    v ∈ b.returnedVars ↔ v ∈ s.vars := by
  unfold Body.returnedVars Scope.vars
  rw [List.mem_append, List.mem_append, List.mem_mergeSort, h.steps, h.nodes, List.mem_map]
  simp only [List.mem_filter, Label.mem_inReturnOrder, true_and]

theorem nodup_returnedVars {s : Scope} {b : Body} (h : Records s b) : b.returnedVars.Nodup := by
  obtain ⟨_, hsteps, hapart⟩ := List.nodup_append.mp h.nodup
  rw [h.steps] at hsteps hapart
  refine b.nodup_returnedVars_iff.mpr ⟨hsteps, fun l hl hmem => ?_⟩
  exact hapart _ ((h.nodes _).mpr ⟨l, hl, rfl⟩) _ hmem rfl

end Records

end ShopQuery
