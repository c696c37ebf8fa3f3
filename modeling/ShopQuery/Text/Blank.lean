-- Blank characters, and what is left of a text once the blanks at its two ends are gone.
namespace ShopQuery.Text

/-! ## Ends of a list -/

/-- The list without the longest tail whose members all satisfy `p`. -/
def dropTrailing {α : Type} (p : α → Bool) (xs : List α) : List α :=
  (xs.reverse.dropWhile p).reverse

/-- The list without the members at its two ends that satisfy `p`. -/
def dropEnds {α : Type} (p : α → Bool) (xs : List α) : List α :=
  dropTrailing p (xs.dropWhile p)

/-- Nothing is added at the ends. -/
theorem mem_of_mem_dropEnds {α : Type} {p : α → Bool} {xs : List α} {x : α}
    (h : x ∈ dropEnds p xs) : x ∈ xs := by
  unfold dropEnds dropTrailing at h
  rw [List.mem_reverse] at h
  have hr := List.dropWhile_subset p h
  rw [List.mem_reverse] at hr
  exact List.dropWhile_subset p hr

/-! ## Blanks -/

/-- The characters with the Unicode property `White_Space`. -/
def isBlank (c : Char) : Bool :=
  let n := c.toNat
  (0x9 ≤ n && n ≤ 0xD) || n == 0x20 || n == 0x85 || n == 0xA0 || n == 0x1680
    || (0x2000 ≤ n && n ≤ 0x200A) || n == 0x2028 || n == 0x2029 || n == 0x202F
    || n == 0x205F || n == 0x3000

/-- The text between its first and its last character that is not blank. -/
def trim (s : String) : String := String.ofList (dropEnds isBlank s.toList)

@[simp] theorem toList_trim (s : String) : (trim s).toList = dropEnds isBlank s.toList := by
  simp [trim]

end ShopQuery.Text
