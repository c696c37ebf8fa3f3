-- Page sizes: how many results a search gives when it does not say, and how many at most.
import ShopQuery.Text.Blank
import ShopQuery.Text.Numeral

namespace ShopQuery

/-- The page size used by default, and the largest one allowed. -/
structure Paging where
  defaultSize : UInt32 := 10
  maxSize : UInt32 := 50
  deriving DecidableEq, Repr

namespace Paging

/-- The largest page that is ever given: even a maximum of zero leaves room for one result. -/
def ceiling (p : Paging) : Nat := max 1 p.maxSize.toNat

/-- The page size nearest to the one asked for, between one and the ceiling. -/
def clamp (p : Paging) (requested : Int) : UInt32 :=
  UInt32.ofNat (max 1 (min requested p.ceiling)).toNat

/-- The page size for a limit as it was written. A text that is no whole number of 64 bits
counts as no text. -/
def sizeFor (p : Paging) (limit : Option String) : UInt32 :=
  p.clamp (((limit.map Text.trim).bind Text.signed64?).getD p.defaultSize.toNat)

/-! ## Bounds -/

theorem ceiling_lt (p : Paging) : p.ceiling < UInt32.size := by
  have h := p.maxSize.toNat_lt_size
  unfold ceiling
  simp only [UInt32.size] at h ⊢
  omega

/-- No bit is lost when the page size becomes a word. -/
theorem toNat_clamp (p : Paging) (requested : Int) :
    ((p.clamp requested).toNat : Int) = max 1 (min requested p.ceiling) := by
  have h := p.ceiling_lt
  unfold clamp
  rw [UInt32.toNat_ofNat']
  simp only [UInt32.size] at h
  omega

theorem one_le_clamp (p : Paging) (requested : Int) : 1 ≤ (p.clamp requested).toNat := by
  have := p.toNat_clamp requested
  omega

theorem clamp_le_ceiling (p : Paging) (requested : Int) :
    (p.clamp requested).toNat ≤ p.ceiling := by
  have h := p.toNat_clamp requested
  have : 1 ≤ p.ceiling := by unfold ceiling; omega
  omega

end Paging

end ShopQuery
