-- The searches that requests amount to, and no others. Each of them can be written as a request
-- again, which amounts to the same search.
import Mathlib.Data.List.DropRight
import ShopQuery.Proofs.Numerals
import ShopQuery.Proofs.RequestMeaning

namespace ShopQuery

/-! ## Texts that stay as they are -/

namespace Text

theorem dropEnds_of_forall {α : Type} {p : α → Bool} {xs : List α} (h : ∀ x ∈ xs, p x = false) :
    dropEnds p xs = xs := by
  have hfront : xs.dropWhile p = xs :=
    List.dropWhile_eq_self_iff.mpr fun hne => by simp [h _ (List.getElem_mem hne)]
  have hback : xs.rdropWhile p = xs :=
    List.rdropWhile_eq_self_iff.mpr fun hne => by simp [h _ (List.getLast_mem hne)]
  unfold dropEnds
  rw [hfront]
  exact hback

/-- What is left begins like the list without its front, and that begins with a member that
stays. -/
theorem dropWhile_dropEnds {α : Type} (p : α → Bool) (xs : List α) :
    (dropEnds p xs).dropWhile p = dropEnds p xs := by
  -- `dropTrailing` is `List.rdropWhile` by definition, so its lemmas apply.
  obtain ⟨tail, htail⟩ := List.rdropWhile_prefix p (xs.dropWhile p)
  have hfirst := List.head?_dropWhile_not p xs
  change dropEnds p xs ++ tail = _ at htail
  rw [← htail] at hfirst
  cases hc : dropEnds p xs with
  | nil => rfl
  | cons x rest =>
    rw [hc] at hfirst
    exact List.dropWhile_cons_of_neg (by simpa using hfirst)

theorem dropEnds_dropEnds {α : Type} (p : α → Bool) (xs : List α) :
    dropEnds p (dropEnds p xs) = dropEnds p xs := by
  have hback : dropTrailing p (dropEnds p xs) = dropEnds p xs :=
    List.rdropWhile_idempotent p (xs.dropWhile p)
  calc dropEnds p (dropEnds p xs)
      = dropTrailing p ((dropEnds p xs).dropWhile p) := rfl
    _ = dropTrailing p (dropEnds p xs) := by rw [dropWhile_dropEnds]
    _ = dropEnds p xs := hback

theorem trim_trim (s : String) : trim (trim s) = trim s := by
  apply String.toList_injective
  simp [dropEnds_dropEnds]

theorem isBlank_of_isDigit {c : Char} (h : isDigit c = true) : isBlank c = false := by
  have hdigits : ∀ d : Fin 10, isBlank (Nat.digitChar d) = false := by decide
  obtain ⟨d, rfl⟩ := exists_digitChar h
  exact hdigits d

theorem trim_repr (n : Nat) : trim n.repr = n.repr := by
  apply String.toList_injective
  rw [toList_trim]
  exact dropEnds_of_forall fun c hc => isBlank_of_isDigit (isDigit_of_mem_repr hc)

theorem quotable_of_harmless {s : String} (h : Harmless s) : quotable s = s := by
  apply String.toList_injective
  rw [toList_quotable, List.filter_eq_self]
  exact harmless_iff.mp h

theorem quotable?_of_harmless {s : String} (h : Harmless s) (hne : s ≠ "") :
    quotable? s = some s := by
  unfold quotable?
  rw [quotable_of_harmless h]
  simp [hne]

end Text

/-! ## Sizes that stay as they are -/

namespace Paging

theorem clamp_of_mem (p : Paging) {n : UInt32} (hlow : 1 ≤ n.toNat) (hhigh : n.toNat ≤ p.ceiling) :
    p.clamp n.toNat = n := by
  have h := p.toNat_clamp n.toNat
  apply UInt32.toNat_inj.mp
  omega

theorem sizeFor_toString (p : Paging) {n : UInt32} (hlow : 1 ≤ n.toNat)
    (hhigh : n.toNat ≤ p.ceiling) : p.sizeFor (some (toString n.toNat)) = n := by
  have hsmall := n.toNat_lt
  have hread : Text.signed64? n.toNat.repr = some (n.toNat : Int) :=
    Text.signed64?_repr (by omega)
  have htrim : Text.trim (toString n.toNat) = n.toNat.repr := Text.trim_repr _
  unfold sizeFor
  rw [Option.map_some, Option.bind_some, htrim, hread, Option.getD_some]
  exact p.clamp_of_mem hlow hhigh

end Paging

/-! ## Normal searches -/

/-- What a search looks like that a request amounts to. -/
structure Search.Normal (s : Search) (p : Paging) : Prop where
  words : ∀ k, s.keyword = some k → Text.Harmless k ∧ k ≠ ""
  keyword : s.asked.contains .keyword = s.keyword.isSome
  sorting : ∀ e, s.orderBy = some e → Text.Harmless e ∧ e ≠ "" ∧ Text.trim e = e
  counting : s.orderBy = some "order_count DESC" →
    s.asked.contains .keyword = true ∧ s.asked.contains .order = true
  size : 1 ≤ s.limit.toNat ∧ s.limit.toNat ≤ max 1 p.maxSize.toNat

namespace Request

theorem trim_sorting {r : Request} {e : String} (h : r.sorting = some e) : Text.trim e = e := by
  unfold sorting at h
  simp only at h
  split at h
  · cases h
  · cases h
    rcases r.orderBy with _ | text
    · decide
    · exact Text.trim_trim _

theorem counting_of_sorting {r : Request} (h : r.sorting = some "order_count DESC") :
    r.words.isSome = true ∧ r.has .order = true := by
  unfold sorting at h
  simp only at h
  split at h
  · cases h
  · rename_i hmeant
    rw [Option.some.injEq] at h
    by_contra hmissing
    exact hmeant (Or.inr ⟨h, hmissing⟩)

theorem normal_toSearch (r : Request) (p : Paging) : (r.toSearch p).Normal p where
  words k hk := by
    obtain ⟨text, _, htext⟩ := Option.bind_eq_some_iff.mp hk
    exact Text.of_quotable?_eq_some htext
  keyword := rfl
  sorting e he := by
    rw [orderBy_toSearch] at he
    exact ⟨harmless_sorting he, sorting_ne_empty he, trim_sorting he⟩
  counting h := by
    rw [orderBy_toSearch] at h
    rw [asked_toSearch, contains_asked, contains_asked]
    exact counting_of_sorting h
  size := ⟨p.one_le_clamp _, p.clamp_le_ceiling _⟩

end Request

/-! ## Writing a search as a request -/

namespace Search

/-- A request with the texts of the search, where each stored label that is asked for has a
filter of its own. -/
def written (s : Search) (texts : Label → String) : Request where
  keyword := s.keyword
  filters := ⟨fun l => if s.asked.contains l && !l.isVirtual then some (texts l) else none⟩
  orderBy := some (s.orderBy.getD "")
  limit := some (toString s.limit.toNat)

variable {s : Search} {p : Paging}

theorem Normal.bind_keyword (h : s.Normal p) : s.keyword.bind Text.quotable? = s.keyword := by
  cases hk : s.keyword with
  | none => rfl
  | some k =>
    obtain ⟨hharmless, hne⟩ := h.words k hk
    exact Text.quotable?_of_harmless hharmless hne

theorem Normal.asked_written (h : s.Normal p) {texts : Label → String}
    (ht : ∀ l, l.isVirtual = false → s.asked.contains l = true →
      Text.Harmless (texts l) ∧ texts l ≠ "") : (s.written texts).asked = s.asked := by
  ext l
  unfold Request.asked written
  by_cases hl : l.isVirtual = true
  · rw [show l = .keyword from beq_iff_eq.mp hl, h.keyword]
    simp [h.bind_keyword, Label.isVirtual]
  · rw [Bool.not_eq_true] at hl
    cases hasked : s.asked.contains l with
    | false => simp [hl, hasked]
    | true =>
      obtain ⟨hharmless, hne⟩ := ht l hl hasked
      simp [hl, hasked, Text.quotable?_of_harmless hharmless hne]

theorem Normal.sortFor_written (h : s.Normal p) :
    Request.sortFor (some (s.orderBy.getD "")) s.asked = s.orderBy := by
  cases ho : s.orderBy with
  | none => rfl
  | some e =>
    obtain ⟨hharmless, hne, htrim⟩ := h.sorting e ho
    have hcount : e = "order_count DESC" →
        s.asked.contains .keyword = true ∧ s.asked.contains .order = true :=
      fun he => h.counting (by rw [ho, he])
    rw [Request.sortFor_eq]
    simp only [Option.getD_some, Option.map_some, Text.stripped_eq_quotable,
      Text.quotable_of_harmless hharmless, htrim]
    rw [if_neg]
    rintro (he | ⟨he, hmissing⟩)
    · exact hne he
    · exact hmissing (hcount he)

/-- The request amounts to the search that it was written from. -/
theorem Normal.toSearch_written (h : s.Normal p) {texts : Label → String}
    (ht : ∀ l, l.isVirtual = false → s.asked.contains l = true →
      Text.Harmless (texts l) ∧ texts l ≠ "") : (s.written texts).toSearch p = s := by
  have hasked := h.asked_written ht
  have hkeyword : (s.written texts).keyword.bind Text.quotable? = s.keyword := h.bind_keyword
  have horder : Request.sortFor (s.written texts).orderBy s.asked = s.orderBy :=
    h.sortFor_written
  have hlimit : p.sizeFor (s.written texts).limit = s.limit :=
    p.sizeFor_toString h.size.1 h.size.2
  unfold Request.toSearch
  rw [hasked, hkeyword, horder, hlimit]

end Search

/-! ## The law -/

/-- A request amounts to the normal searches and to no others. A normal search that is written
as a request, with any harmless texts for its filters, is what the request amounts to. -/
theorem requests_amount_to_the_normal_searches (p : Paging) (s : Search) :
    ((∃ r : Request, r.toSearch p = s) ↔ s.Normal p)
    ∧ ∀ texts : Label → String, s.Normal p →
        (∀ l, l.isVirtual = false → s.asked.contains l = true →
          Text.Harmless (texts l) ∧ texts l ≠ "") →
        (s.written texts).toSearch p = s := by
  refine ⟨⟨?_, fun h => ?_⟩, fun texts h ht => h.toSearch_written ht⟩
  · rintro ⟨r, rfl⟩
    exact r.normal_toSearch p
  · exact ⟨s.written fun _ => "1", h.toSearch_written fun _ _ _ => ⟨by decide, by decide⟩⟩

/-- The default order of a search for lamps and orders can be asked for by name. -/
theorem a_search_by_default_order_is_written_out :
    ∃ s : Search, s.Normal {} ∧ s.orderBy = some "order_count DESC"
      ∧ (s.written fun _ => "1").toSearch {} = s := by
  have h : (⟨some "lamp", .ofList [.order, .keyword], some "order_count DESC", 10⟩ :
      Search).Normal {} := by
    refine ⟨?_, rfl, ?_, fun _ => ⟨rfl, rfl⟩, by decide⟩
    · rintro k ⟨⟩
      decide
    · rintro e ⟨⟩
      decide
  exact ⟨_, h, rfl,
    (requests_amount_to_the_normal_searches {} _).2 _ h fun _ _ _ => ⟨by decide, by decide⟩⟩

end ShopQuery
