-- How many results a search gives. A limit is any text; if it writes a number of 64 bits, the
-- search takes the nearest size between one and the largest page, and for every other text it
-- takes the default size in the same way.
import ShopQuery.Proofs.Numerals
import ShopQuery.Search.Plan

namespace ShopQuery

/-- The limit of the request, without the blanks around it, writes this number of 64 bits. -/
def Request.AsksFor (r : Request) (n : Int) : Prop :=
  ∃ text, r.limit = some text ∧ Text.WritesInteger (Text.trim text).toList n
    ∧ -2 ^ 63 ≤ n ∧ n < 2 ^ 63

theorem Request.asksFor_iff {r : Request} {n : Int} :
    r.AsksFor n ↔ (r.limit.map Text.trim).bind Text.signed64? = some n := by
  unfold AsksFor
  rcases r.limit with _ | text
  · simp
  · simp [Text.signed64?_iff]

namespace Paging

variable {p : Paging}

theorem one_le_ceiling (p : Paging) : 1 ≤ p.ceiling := by
  unfold ceiling
  omega

/-- A larger wish never gives a smaller page. -/
theorem clamp_mono (p : Paging) {m n : Int} (h : m ≤ n) : p.clamp m ≤ p.clamp n := by
  have hm := p.toNat_clamp m
  have hn := p.toNat_clamp n
  rw [UInt32.le_iff_toNat_le]
  omega

theorem sizeFor_of_asksFor {r : Request} {n : Int} (h : r.AsksFor n) :
    p.sizeFor r.limit = p.clamp n := by
  unfold sizeFor
  rw [Request.asksFor_iff.mp h, Option.getD_some]

theorem sizeFor_of_asksFor_none {r : Request} (h : ∀ n, ¬ r.AsksFor n) :
    p.sizeFor r.limit = p.clamp p.defaultSize.toNat := by
  have hnone : (r.limit.map Text.trim).bind Text.signed64? = none := by
    rw [Option.eq_none_iff_forall_ne_some]
    exact fun n hn => h n (Request.asksFor_iff.mpr hn)
  unfold sizeFor
  rw [hnone, Option.getD_none]

end Paging

/-! ## The law -/

/-- The size of a search is the number that the request asks for, or else the default size, moved
to the nearest number between one and the largest page. These two ends are in order even where
the largest page is empty, the size fits in its word, and who asks for more never gets less. -/
theorem a_search_gives_the_nearest_page_size (p : Paging) :
    (∀ (r : Request) n, r.AsksFor n →
      ((r.toSearch p).limit.toNat : Int) = max 1 (min n (max 1 p.maxSize.toNat)))
    ∧ (∀ r : Request, (∀ n, ¬ r.AsksFor n) →
      (r.toSearch p).limit.toNat = max 1 (min p.defaultSize.toNat (max 1 p.maxSize.toNat)))
    ∧ (∀ r : Request, 1 ≤ (r.toSearch p).limit.toNat
      ∧ (r.toSearch p).limit.toNat ≤ max 1 p.maxSize.toNat
      ∧ ∀ s : Schema, (s.explore p r).limit.map UInt64.toNat = some (r.toSearch p).limit.toNat)
    ∧ (1 ≤ p.ceiling ∧ p.ceiling < 2 ^ 32
      ∧ ∀ n, ((p.clamp n).toNat : Int) = max 1 (min n p.ceiling))
    ∧ ∀ (q r : Request) m n, q.AsksFor m → r.AsksFor n → m ≤ n →
      (q.toSearch p).limit ≤ (r.toSearch p).limit := by
  have hlimit : ∀ r : Request, (r.toSearch p).limit = p.sizeFor r.limit := fun _ => rfl
  have hceiling : p.ceiling = max 1 p.maxSize.toNat := rfl
  refine ⟨?_, ?_, ?_, ⟨p.one_le_ceiling, p.ceiling_lt, p.toNat_clamp⟩, ?_⟩
  · intro r n h
    have hsize := p.toNat_clamp n
    rw [hlimit, Paging.sizeFor_of_asksFor h]
    omega
  · intro r h
    have hsize := p.toNat_clamp p.defaultSize.toNat
    rw [hlimit, Paging.sizeFor_of_asksFor_none h]
    omega
  · intro r
    refine ⟨p.one_le_clamp _, p.clamp_le_ceiling _, fun s => ?_⟩
    unfold Schema.explore Search.plan
    simp
  · intro q r m n hq hr h
    rw [hlimit, hlimit, Paging.sizeFor_of_asksFor hq, Paging.sizeFor_of_asksFor hr]
    exact p.clamp_mono h

/-- The least number of 64 bits, and twelve with a sign and zeros, on pages of nine at most. The
first number beyond 64 bits counts as no limit. -/
theorem twelve_results_do_not_fit_on_a_page_of_nine :
    ∃ q r t : Request, q.AsksFor (-2 ^ 63) ∧ r.AsksFor 12 ∧ (∀ n, ¬ t.AsksFor n)
      ∧ (q.toSearch ⟨70, 9⟩).limit.toNat = 1 ∧ (r.toSearch ⟨70, 9⟩).limit.toNat = 9
      ∧ (q.toSearch ⟨70, 9⟩).limit ≤ (r.toSearch ⟨70, 9⟩).limit
      ∧ (t.toSearch ⟨70, 9⟩).limit.toNat = 9 := by
  let q : Request := { limit := some "-9223372036854775808" }
  let r : Request := { limit := some " +0012\t" }
  let t : Request := { limit := some "9223372036854775808" }
  have hq : q.AsksFor (-2 ^ 63) := Request.asksFor_iff.mpr (by decide)
  have hr : r.AsksFor 12 := Request.asksFor_iff.mpr (by decide)
  have ht : ∀ n, ¬ t.AsksFor n := by
    intro n hn
    have hread : (t.limit.map Text.trim).bind Text.signed64? = none := by decide
    cases (Request.asksFor_iff.mp hn).symm.trans hread
  have hmax : max 1 (9 : UInt32).toNat = 9 := by decide
  obtain ⟨hasked, hdefault, _, _, hmono⟩ := a_search_gives_the_nearest_page_size ⟨70, 9⟩
  have hlow := hasked q _ hq
  have hhigh := hasked r _ hr
  dsimp only at hlow hhigh
  exact ⟨q, r, t, hq, hr, ht, by omega, by omega, hmono q r _ _ hq hr (by decide), hdefault t ht⟩

end ShopQuery
