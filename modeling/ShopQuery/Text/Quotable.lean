-- Texts that may stand between quotes: no quote and no backslash is left in them.
import ShopQuery.Text.Blank

namespace ShopQuery.Text

/-- A character that neither ends nor escapes a quoted text. -/
def isQuotable (c : Char) : Bool := c != '\x27' && c != '\x22' && c != '\x5c'

/-- The text without single quotes, double quotes and backslashes. -/
def quotable (s : String) : String := String.ofList (s.toList.filter isQuotable)

/-- The quotable part of a text, if there is any. -/
def quotable? (s : String) : Option String :=
  if (quotable s).isEmpty then none else some (quotable s)

@[simp] theorem toList_quotable (s : String) :
    (quotable s).toList = s.toList.filter isQuotable := by
  simp [quotable]

theorem isQuotable_iff (c : Char) :
    isQuotable c = true ↔ c ≠ '\x27' ∧ c ≠ '\x22' ∧ c ≠ '\x5c' := by
  simp [isQuotable, and_assoc]

/-! ## Harmless texts -/

/-- Every character of the text may stand between quotes. -/
def Harmless (s : String) : Prop := s.toList.all isQuotable = true

instance (s : String) : Decidable (Harmless s) := inferInstanceAs (Decidable (_ = true))

theorem harmless_iff {s : String} : Harmless s ↔ ∀ c ∈ s.toList, isQuotable c = true :=
  List.all_eq_true

theorem quote_not_mem {s : String} (h : Harmless s) : '\x27' ∉ s.toList := by
  intro hq
  exact absurd (harmless_iff.mp h _ hq) (by decide)

/-- A literal is harmless if its characters are; they are seen without decoding the text. -/
theorem harmless_ofList {cs : List Char} (h : cs.all isQuotable = true) :
    Harmless (String.ofList cs) := by
  unfold Harmless
  rwa [String.toList_ofList]

theorem harmless_quotable (s : String) : Harmless (quotable s) := by
  rw [harmless_iff, toList_quotable]
  intro c hc
  exact (List.mem_filter.mp hc).2

theorem harmless_append {s t : String} : Harmless (s ++ t) ↔ Harmless s ∧ Harmless t := by
  unfold Harmless
  rw [String.toList_append, List.all_append, Bool.and_eq_true]

theorem harmless_trim {s : String} (h : Harmless s) : Harmless (trim s) := by
  rw [harmless_iff] at h ⊢
  intro c hc
  rw [toList_trim] at hc
  exact h c (mem_of_mem_dropEnds hc)

theorem harmless_intercalate {sep : String} {parts : List String} (hs : Harmless sep)
    (hp : ∀ part ∈ parts, Harmless part) : Harmless (sep.intercalate parts) := by
  induction parts with
  | nil => rfl
  | cons part rest ih =>
    have hrest := ih fun q hq => hp q (List.mem_cons_of_mem _ hq)
    have hpart := hp part List.mem_cons_self
    cases rest with
    | nil => rwa [String.intercalate_singleton]
    | cons next rest =>
      rw [String.intercalate_cons_cons, harmless_append, harmless_append]
      exact ⟨⟨hpart, hs⟩, hrest⟩

/-- A quotable part that is there is harmless and not empty. -/
theorem of_quotable?_eq_some {s t : String} (h : quotable? s = some t) : Harmless t ∧ t ≠ "" := by
  unfold quotable? at h
  split at h
  · cases h
  · rename_i hne
    cases h
    exact ⟨harmless_quotable s, by simpa using hne⟩

end ShopQuery.Text
