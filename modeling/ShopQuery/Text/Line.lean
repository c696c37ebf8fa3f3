-- Lines: how they are put together, and the line feeds at the end of a text.
import ShopQuery.Text.Blank

namespace ShopQuery.Text

/-- Each line followed by a line feed. -/
def ofLines : List String → String
  | [] => ""
  | line :: rest => line ++ "\n" ++ ofLines rest

/-- The text without the line feeds at its end. -/
def dropFinalNewlines (s : String) : String :=
  String.ofList (dropTrailing (· == '\n') s.toList)

@[simp] theorem ofLines_nil : ofLines [] = "" := rfl

theorem ofLines_append (xs ys : List String) :
    ofLines (xs ++ ys) = ofLines xs ++ ofLines ys := by
  induction xs with
  | nil => simp [ofLines]
  | cons x xs ih => simp [ofLines, ih, String.append_assoc]

end ShopQuery.Text
