-- States with places that are written one write at a time. A write fills its own place and leaves
-- the others alone, so after any run of writes a place holds the last value written to it, and
-- writes to other places may stand anywhere.
import Mathlib.Data.List.Induction
import Mathlib.Data.List.Nodup

namespace ShopQuery

variable {σ α κ ν : Type} [DecidableEq κ]

/-! ## The last write to a place -/

/-- The value of the last write to a place, if there is one. -/
def lastAt (place : α → κ) (value : α → ν) (writes : List α) (k : κ) : Option ν :=
  (writes.filter fun w => place w = k).getLast?.map value

section Last

variable {place : α → κ} {value : α → ν} {k : κ}

/-- Later writes come before earlier ones. -/
theorem lastAt_append (front rest : List α) : lastAt place value (front ++ rest) k
    = (lastAt place value rest k).or (lastAt place value front k) := by
  unfold lastAt
  rw [List.filter_append, List.getLast?_append, Option.map_or]

theorem lastAt_singleton (w : α) :
    lastAt place value [w] k = if place w = k then some (value w) else none := by
  unfold lastAt
  by_cases h : place w = k
  · simp [h]
  · simp [h]

theorem lastAt_cons (w : α) (rest : List α) : lastAt place value (w :: rest) k
    = (lastAt place value rest k).or (if place w = k then some (value w) else none) := by
  rw [← List.singleton_append, lastAt_append, lastAt_singleton]

theorem lastAt_eq_none {writes : List α} :
    lastAt place value writes k = none ↔ ∀ w ∈ writes, place w ≠ k := by
  unfold lastAt
  rw [Option.map_eq_none_iff, List.getLast?_eq_none_iff, List.filter_eq_nil_iff]
  simp

/-- A write is forgotten where there is a later one to its place. -/
theorem lastAt_drop_earlier {w : α} {rest : List α} (h : place w ∈ rest.map place)
    (front : List α) : lastAt place value (front ++ w :: rest) k
      = lastAt place value (front ++ rest) k := by
  rw [lastAt_append, lastAt_append, lastAt_cons]
  by_cases hw : place w = k
  · obtain ⟨later, hlater, hplace⟩ := List.mem_map.mp h
    have hsome : lastAt place value rest k ≠ none := by
      rw [Ne, lastAt_eq_none]
      exact fun hnone => hnone later hlater (hplace.trans hw)
    obtain ⟨v, hv⟩ := Option.ne_none_iff_exists'.mp hsome
    rw [hv, Option.some_or, Option.some_or]
  · rw [if_neg hw, Option.or_none]

/-- Two writes to different places may change places. -/
theorem lastAt_swap {w u : α} (h : place w ≠ place u) (front rest : List α) :
    lastAt place value (front ++ w :: u :: rest) k
      = lastAt place value (front ++ u :: w :: rest) k := by
  simp only [lastAt_append, lastAt_cons, Option.or_assoc]
  by_cases hw : place w = k
  · rw [if_neg fun hu => h (hw.trans hu.symm), Option.none_or, Option.none_or]
  · rw [if_neg hw, Option.none_or, Option.none_or]

/-- A write to another place does not matter. -/
theorem lastAt_drop_other {w : α} (h : place w ≠ k) (front rest : List α) :
    lastAt place value (front ++ w :: rest) k = lastAt place value (front ++ rest) k := by
  rw [lastAt_append, lastAt_append, lastAt_cons, if_neg h, Option.or_none]

/-- Where no place is written twice, each write is the last one to its place. -/
theorem lastAt_of_nodup {writes : List α} (h : (writes.map place).Nodup) {v : ν} :
    lastAt place value writes k = some v ↔ ∃ w ∈ writes, place w = k ∧ value w = v := by
  induction writes with
  | nil => simp [lastAt]
  | cons w rest ih =>
    rw [List.map_cons, List.nodup_cons] at h
    rw [lastAt_cons]
    by_cases hw : place w = k
    · have hrest : lastAt place value rest k = none := by
        rw [lastAt_eq_none]
        rintro u hu rfl
        exact h.1 (hw ▸ List.mem_map_of_mem hu)
      rw [hrest, Option.none_or, if_pos hw, Option.some.injEq]
      constructor
      · rintro rfl
        exact ⟨w, List.mem_cons_self, hw, rfl⟩
      · rintro ⟨u, hu, rfl, rfl⟩
        rcases List.mem_cons.mp hu with rfl | hu
        · rfl
        · exact absurd (hw ▸ List.mem_map_of_mem hu) h.1
    · rw [if_neg hw, Option.or_none, ih h.2]
      constructor
      · rintro ⟨u, hu, hplace⟩
        exact ⟨u, List.mem_cons_of_mem _ hu, hplace⟩
      · rintro ⟨u, hu, hplace, hvalue⟩
        rcases List.mem_cons.mp hu with rfl | hu
        · exact absurd hplace hw
        · exact ⟨u, hu, hplace, hvalue⟩

end Last

/-! ## Runs of writes -/

/-- A state with places, and writes that each put one value in one place. -/
structure Places (σ α κ ν : Type) [DecidableEq κ] where
  write : σ → α → σ
  read : σ → κ → Option ν
  place : α → κ
  value : α → ν
  /-- A write is read back at its own place, and is not seen at any other. -/
  read_write : ∀ s w k, read (write s w) k = if place w = k then some (value w) else read s k

namespace Places

variable (p : Places σ α κ ν)

/-- The state after some writes, one after another. -/
def run (s : σ) (writes : List α) : σ := writes.foldl p.write s

theorem run_concat (s : σ) (writes : List α) (w : α) :
    p.run s (writes ++ [w]) = p.write (p.run s writes) w := List.foldl_concat ..

/-- After a run of writes, a place holds the last value written to it, or what it held before. -/
theorem read_run (s : σ) (writes : List α) (k : κ) : p.read (p.run s writes) k
    = (lastAt p.place p.value writes k).or (p.read s k) := by
  -- From the back, since the last write is the one that is read back first.
  induction writes using List.reverseRecOn with
  | nil => rfl
  | append_singleton writes w ih =>
    rw [p.run_concat, p.read_write, ih, lastAt_append, lastAt_singleton]
    split
    case isTrue => rw [Option.some_or, Option.some_or]
    case isFalse => rw [Option.none_or]

end Places

end ShopQuery
