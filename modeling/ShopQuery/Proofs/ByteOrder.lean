-- The order of texts by their bytes in UTF-8. It is the order by their characters: the bytes of
-- a character differ from those of any other one before either of them ends, and where they
-- first differ the larger character has the larger byte.
import Mathlib.Data.String.Basic

namespace ShopQuery

namespace Text

/-- The bytes of a text in UTF-8. -/
def bytes (s : String) : List UInt8 := s.toUTF8.data.toList

theorem bytes_eq (s : String) : bytes s = s.toList.flatMap String.utf8EncodeChar := by
  have hs : s.toUTF8 = s.toList.utf8Encode := by
    rw [String.toUTF8_eq_toByteArray, ← String.toByteArray_ofList, String.ofList_toList]
  unfold bytes
  rw [hs, List.utf8Encode, List.toList_data_toByteArray]

/-! ## One character -/

theorem toNat_val_lt (c : Char) : c.val.toNat < 2 ^ 21 := by
  have hvalid := c.valid
  simp only [UInt32.isValidChar, Nat.isValidChar] at hvalid
  omega

/-- Four bytes hold a digit of base 64 each, above the bits that say which byte it is, so the
smaller number has the smaller byte where the two first differ. -/
theorem four_bytes_lt {m n : ℕ} (h : m < n) (hn : n < 2 ^ 21) (xs ys : List UInt8) :
    .ofNat (m / 262144 % 8 + 240) :: .ofNat (m / 4096 % 64 + 128) :: .ofNat (m / 64 % 64 + 128)
        :: .ofNat (m % 64 + 128) :: xs
      < .ofNat (n / 262144 % 8 + 240) :: .ofNat (n / 4096 % 64 + 128)
        :: .ofNat (n / 64 % 64 + 128) :: .ofNat (n % 64 + 128) :: ys := by
  have hstep : ∀ {a b : ℕ}, a < b → a / 64 < b / 64 ∨ a / 64 = b / 64 ∧ a % 64 < b % 64 := by
    omega
  have hsecond : ∀ k : ℕ, k / 4096 = k / 64 / 64 := by omega
  have hfirst : ∀ k : ℕ, k / 262144 = k / 64 / 64 / 64 := by omega
  simp only [List.cons_lt_cons_iff, UInt8.lt_iff_toNat_lt, UInt8.toNat_ofNat', hfirst, hsecond]
  rcases hstep h with hhigh | ⟨heq, hlast⟩
  · rcases hstep hhigh with hhigher | ⟨heq, hlast⟩
    · rcases hstep hhigher with hhighest | ⟨heq, hlast⟩
      · exact .inl (by omega)
      · exact .inr ⟨by rw [heq], .inl (by omega)⟩
    · exact .inr ⟨by rw [heq], .inr ⟨by rw [heq], .inl (by omega)⟩⟩
  · exact .inr ⟨by rw [heq], .inr ⟨by rw [heq], .inr ⟨by rw [heq], .inl (by omega)⟩⟩⟩

theorem encode_lt {c d : Char} (h : c < d) (xs ys : List UInt8) :
    String.utf8EncodeChar c ++ xs < String.utf8EncodeChar d ++ ys := by
  have hlt : c.val.toNat < d.val.toNat := h
  have hd := toNat_val_lt d
  unfold String.utf8EncodeChar
  generalize c.val.toNat = m at hlt
  generalize d.val.toNat = n at hlt hd
  simp only
  by_cases hlong : 65535 < m
  · rw [if_neg (by omega), if_neg (by omega), if_neg (by omega), if_neg (by omega),
      if_neg (by omega), if_neg (by omega)]
    exact four_bytes_lt hlt hd xs ys
  · -- By the lengths of both: a longer encoding has a larger first byte.
    split_ifs
    all_goals
      simp only [List.cons_append, List.nil_append, List.cons_lt_cons_iff,
        UInt8.lt_iff_toNat_lt, ← UInt8.toNat_inj, UInt8.toNat_ofNat']
      omega

/-! ## Texts -/

theorem flatMap_encode_lt {xs ys : List Char} (h : xs < ys) :
    xs.flatMap String.utf8EncodeChar < ys.flatMap String.utf8EncodeChar := by
  induction ys generalizing xs with
  | nil => exact absurd h (List.not_lt_nil xs)
  | cons d ys ih =>
    cases xs with
    | nil =>
      obtain ⟨b, rest, hb⟩ := List.exists_cons_of_ne_nil (String.utf8EncodeChar_ne_nil (c := d))
      rw [List.flatMap_cons, hb]
      exact List.nil_lt_cons _ _
    | cons c xs =>
      rw [List.flatMap_cons, List.flatMap_cons]
      rcases List.cons_lt_cons_iff.mp h with hc | ⟨rfl, hrest⟩
      · exact encode_lt hc _ _
      · exact List.append_left_lt (ih hrest)

theorem bytes_lt {x y : String} (h : x < y) : bytes x < bytes y := by
  rw [bytes_eq, bytes_eq]
  exact flatMap_encode_lt (String.lt_iff_toList_lt.mp h)

theorem bytes_le {x y : String} (h : x ≤ y) : bytes x ≤ bytes y := by
  rcases le_iff_lt_or_eq.mp h with hlt | rfl
  · exact List.le_of_lt (bytes_lt hlt)
  · exact List.le_refl _

end Text

end ShopQuery
