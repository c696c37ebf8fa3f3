-- What a request asks for, read off its raw texts alone. The search that a request amounts to
-- holds exactly this, so the laws of a query can be said of the request as it was written.
import Mathlib.Data.List.Basic
import ShopQuery.Search.Basic

namespace ShopQuery

/-! ## The reading of a request -/

/-- The text without single quotes, double quotes and backslashes. -/
def Text.stripped (s : String) : String :=
  String.ofList (s.toList.filter fun c => c ∉ ['\x27', '\x22', '\x5c'])

namespace Request

/-- The words searched for: what is left of the keyword without quotes and backslashes. -/
def words (r : Request) : Option String := (r.keyword.map Text.stripped).filter (· ≠ "")

/-- The filter on the label is there, and something is left of it. -/
def has (r : Request) (l : Label) : Bool :=
  (r.filters.get? l).any fun value => Text.stripped value ≠ ""

/-- The expression that the query sorts by. The default one is meant only where there are
words and orders; an empty one is never meant. -/
def sorting (r : Request) : Option String :=
  let expression :=
    (r.orderBy.map fun text => Text.trim (Text.stripped text)).getD "order_count DESC"
  if expression = ""
    ∨ (expression = "order_count DESC" ∧ ¬ (r.words.isSome ∧ r.has .order)) then none
  else some expression

/-- The number of results: the limit if it is a number of 64 bits, and else the default size,
moved to the nearest number from one to the largest size. -/
def size (r : Request) (p : Paging) : Nat :=
  let wanted := ((r.limit.map Text.trim).bind Text.signed64?).getD p.defaultSize.toNat
  (max 1 (min wanted (max 1 p.maxSize.toNat))).toNat

/-- The query follows the relationship that leads to the label. The labels below an order
come in only together with orders. -/
def joins (r : Request) : Label → Bool
  | .cancel => r.has .order && r.has .cancel
  | .order => r.has .order
  | .product => false
  | .returned => r.has .order && r.has .returned
  | .shipment => r.has .order && r.has .shipment
  | .storage => r.has .storage
  | .supplier => r.has .supplier
  | .keyword => r.words.isSome

end Request

/-! ## The search holds the reading -/

theorem Text.stripped_eq_quotable (s : String) : Text.stripped s = Text.quotable s := by
  unfold stripped quotable isQuotable
  congr 1
  apply List.filter_congr
  intro c _
  rw [Bool.eq_iff_iff]
  simp [and_assoc]

theorem Text.filter_stripped (o : Option String) :
    (o.map stripped).filter (· ≠ "") = o.bind quotable? := by
  rcases o with _ | s
  · rfl
  · unfold quotable?
    rw [Option.map_some, Option.bind_some, stripped_eq_quotable]
    by_cases h : quotable s = ""
    · simp [h]
    · simp [h]

namespace Request

theorem words_eq (r : Request) : r.words = r.keyword.bind Text.quotable? :=
  Text.filter_stripped r.keyword

theorem has_eq (r : Request) (l : Label) :
    r.has l = ((r.filters.get? l).bind Text.quotable?).isSome := by
  unfold has
  rw [← Text.filter_stripped]
  rcases r.filters.get? l with _ | value
  · rfl
  · by_cases h : Text.stripped value = "" <;> simp [h]

theorem contains_asked (r : Request) (l : Label) :
    r.asked.contains l = if l.isVirtual then r.words.isSome else r.has l := by
  unfold asked
  rw [words_eq, has_eq]

theorem asked_toSearch (r : Request) (p : Paging) : (r.toSearch p).asked = r.asked := rfl

theorem keyword_toSearch (r : Request) (p : Paging) : (r.toSearch p).keyword = r.words :=
  r.words_eq.symm

/-- The two guards of the sort expression are one. -/
theorem sortFor_eq (text : Option String) (asked : LabelSet) :
    sortFor text asked =
      let expression := (text.map fun t => Text.trim (Text.stripped t)).getD "order_count DESC"
      if expression = "" ∨ (expression = "order_count DESC"
        ∧ ¬ (asked.contains .keyword ∧ asked.contains .order)) then none
      else some expression := by
  have guards : ∀ e : String, (if e.isEmpty then none
      else if e == defaultOrder && !(asked.contains .keyword && asked.contains .order) then none
      else some e) = if e = "" ∨ (e = "order_count DESC"
        ∧ ¬ (asked.contains .keyword ∧ asked.contains .order)) then none else some e := by
    intro e
    by_cases h : e = ""
    · simp [h]
    · by_cases hd : e = "order_count DESC"
      · cases asked.contains .keyword <;> cases asked.contains .order <;> simp [hd, defaultOrder]
      · simp [h, hd, defaultOrder]
  unfold sortFor
  rcases text with _ | t
  · exact guards _
  · simp only [Option.map_some, Option.getD_some, Text.stripped_eq_quotable]
    exact guards _

theorem orderBy_toSearch (r : Request) (p : Paging) : (r.toSearch p).orderBy = r.sorting := by
  unfold toSearch sorting
  rw [sortFor_eq, contains_asked, contains_asked]
  rfl

theorem sorting_ne_empty {r : Request} {e : String} (h : r.sorting = some e) : e ≠ "" := by
  unfold sorting at h
  simp only at h
  split at h
  · cases h
  · rename_i hmeant
    cases h
    exact fun he => hmeant (Or.inl he)

/-- Only the words searched for decide what stands between quotes. -/
theorem harmless_words {r : Request} {k : String} (h : r.words = some k) : Text.Harmless k := by
  rw [words_eq, Option.bind_eq_some_iff] at h
  obtain ⟨text, _, hk⟩ := h
  exact (Text.of_quotable?_eq_some hk).1

theorem harmless_sorting {r : Request} {e : String} (h : r.sorting = some e) :
    Text.Harmless e := by
  unfold sorting at h
  simp only at h
  split at h
  · cases h
  · cases h
    rcases r.orderBy with _ | text
    · decide
    · rw [Option.map_some, Option.getD_some, Text.stripped_eq_quotable]
      exact Text.harmless_trim (Text.harmless_quotable text)

theorem limit_toSearch (r : Request) (p : Paging) : (r.toSearch p).limit.toNat = r.size p := by
  unfold toSearch Paging.sizeFor size
  have h := p.toNat_clamp (((r.limit.map Text.trim).bind Text.signed64?).getD p.defaultSize.toNat)
  unfold Paging.ceiling at h
  simp only
  omega

end Request

end ShopQuery
