-- Requests that are put together part by part. Each part fills one place of the request, and a
-- filter on the virtual label fills the place of the words. So it is the last part for a place
-- that counts, and parts for different places may come in any order.
import ShopQuery.Proofs.LastWrite
import ShopQuery.Proofs.Numerals
import ShopQuery.Query.Cypher
import ShopQuery.Search.Plan

namespace ShopQuery

/-! ## Parts and places -/

/-- One thing that is said about a search. -/
inductive Part
  | keyword (text : String)
  | filter (label : Label) (text : String)
  | orderBy (expression : String)
  | limit (text : String)
  /-- A limit that is said as a number. -/
  | limitNumber (n : Int)
  deriving DecidableEq

/-- A place of a request. -/
inductive Place
  | keyword
  | filter (label : Label)
  | orderBy
  | limit
  deriving DecidableEq

/-- The part that fills a place with a text. -/
def Place.part : Place → String → Part
  | keyword => .keyword
  | filter label => .filter label
  | orderBy => .orderBy
  | limit => .limit

namespace Part

/-- The place that a part fills. -/
def place : Part → Place
  | keyword _ => .keyword
  | filter .keyword _ => .keyword
  | filter label _ => .filter label
  | orderBy _ => .orderBy
  | limit _ => .limit
  | limitNumber _ => .limit

def text : Part → String
  | keyword text => text
  | filter _ text => text
  | orderBy expression => expression
  | limit text => text
  | limitNumber n => toString n

/-- The text of the last part for a place, if there is one. -/
def last? (parts : List Part) (place : Place) : Option String := lastAt Part.place text parts place

/-- No part fills the filter on the virtual label. -/
theorem place_ne_filter_keyword (part : Part) : part.place ≠ .filter .keyword := by
  intro h
  cases part with
  | filter label text => cases label <;> cases h
  | keyword text => cases h
  | orderBy expression => cases h
  | limit text => cases h
  | limitNumber n => cases h

/-- The text of a number is written in digits, behind a minus sign if it is negative. -/
theorem writesInteger_toString (n : Int) : Text.WritesInteger (toString n).toList n := by
  cases n with
  | ofNat m => exact .bare (Text.writes_repr m)
  | negSucc m =>
    have hsign : (toString (Int.negSucc m)).toList = '-' :: (m + 1).repr.toList :=
      String.toList_append
    rw [hsign]
    exact .minus (Text.writes_repr (m + 1))

end Part

/-! ## Putting a request together -/

namespace Request

/-- The request with one part more. -/
def add (r : Request) : Part → Request
  | .keyword text => r.withKeyword text
  | .filter label text => r.withFilter label text
  | .orderBy expression => r.withOrderBy expression
  | .limit text => r.withLimit text
  | .limitNumber n => r.withLimitNumber n

/-- The request of some parts, in the order in which they are said. -/
def ofParts (parts : List Part) : Request := parts.foldl add {}

/-- What stands in a place of the request. -/
def said (r : Request) : Place → Option String
  | .keyword => r.keyword
  | .filter label => r.filters.get? label
  | .orderBy => r.orderBy
  | .limit => r.limit

/-- There is no more to a request than what stands in its places. -/
theorem eq_of_said {q r : Request} (h : ∀ place, q.said place = r.said place) : q = r := by
  have hfilters : q.filters = r.filters := by
    ext1
    exact funext fun label => h (.filter label)
  have hkeyword := h .keyword
  have horder := h .orderBy
  have hlimit := h .limit
  cases q
  cases r
  simp only [said] at hkeyword horder hlimit hfilters
  rw [hkeyword, hfilters, horder, hlimit]

theorem said_add (r : Request) (part : Part) (place : Place) :
    (r.add part).said place = if part.place = place then some part.text else r.said place := by
  have hfilter : ∀ l k text, ((r.filters.insert l text).get? k : Option String)
      = if Place.filter l = Place.filter k then some text else r.filters.get? k := by
    intro l k text
    rw [Filters.get?_insert]
    by_cases hk : k = l
    · rw [if_pos hk, if_pos (congrArg _ hk.symm)]
    · rw [if_neg hk, if_neg fun hp => hk (Place.filter.inj hp).symm]
  cases part with
  | filter label text =>
    cases label
    case keyword => cases place <;> rfl
    all_goals
      cases place with
      | filter k => exact hfilter _ k text
      | keyword => rfl
      | orderBy => rfl
      | limit => rfl
  | keyword text => cases place <;> rfl
  | orderBy expression => cases place <;> rfl
  | limit text => cases place <;> rfl
  | limitNumber n => cases place <;> rfl

/-- Requests as states with places, and parts as writes to them. -/
def places : Places Request Part Place String where
  write := add
  read := said
  place := Part.place
  value := Part.text
  read_write := said_add

theorem said_empty (place : Place) : ({} : Request).said place = none := by
  cases place <;> rfl

theorem said_ofParts (parts : List Part) (place : Place) :
    (ofParts parts).said place = Part.last? parts place := by
  have hempty : places.read {} place = none := said_empty place
  have hrun := places.read_run {} parts place
  rw [hempty, Option.or_none] at hrun
  exact hrun

theorem ofParts_eq_of_last {parts others : List Part}
    (h : ∀ place, Part.last? parts place = Part.last? others place) :
    ofParts parts = ofParts others := by
  apply eq_of_said
  intro place
  rw [said_ofParts, said_ofParts, h]

end Request

/-! ## The law -/

/-- Each place of a request holds the text of the last part for it, and nothing if there is no
such part. The words may also be said as a filter on the virtual label, which has no filter of its
own, and a number becomes its decimal text. Parts that agree on the last one for each place make
one request, with one text on pages of any size. -/
theorem the_last_part_for_each_place_counts (parts : List Part) :
    (Request.ofParts parts).keyword = Part.last? parts .keyword
    ∧ (∀ label, label ≠ .keyword →
      (Request.ofParts parts).filters.get? label = Part.last? parts (.filter label))
    ∧ (Request.ofParts parts).filters.get? .keyword = none
    ∧ (Request.ofParts parts).orderBy = Part.last? parts .orderBy
    ∧ (Request.ofParts parts).limit = Part.last? parts .limit
    ∧ (∀ place, Part.last? parts place = none ↔ ∀ part ∈ parts, part.place ≠ place)
    ∧ (∀ n, Text.WritesInteger (Part.limitNumber n).text.toList n)
    ∧ ∀ others, (∀ place, Part.last? parts place = Part.last? others place) →
      Request.ofParts parts = Request.ofParts others
      ∧ ∀ paging, (Schema.retail.explore paging (.ofParts parts)).render
        = (Schema.retail.explore paging (.ofParts others)).render := by
  have hsaid := Request.said_ofParts parts
  refine ⟨hsaid .keyword, fun label _ => hsaid (.filter label), ?_, hsaid .orderBy, hsaid .limit,
    fun place => lastAt_eq_none, Part.writesInteger_toString, ?_⟩
  · refine (hsaid (.filter .keyword)).trans (lastAt_eq_none.mpr ?_)
    exact fun part _ => part.place_ne_filter_keyword
  · intro others h
    have hsame := Request.ofParts_eq_of_last h
    exact ⟨hsame, fun paging => by rw [hsame]⟩

/-- Words said twice, once as a filter, and a limit as a number: the earlier words are forgotten,
and the rest may be said from the back. -/
theorem what_is_said_first_is_forgotten :
    let parts : List Part := [.keyword "desk", .filter .order "o1", .limitNumber (-7),
      .filter .keyword "lamp", .orderBy "product.price"]
    let others : List Part := [.orderBy "product.price", .filter .keyword "lamp", .limit "-7",
      .filter .order "o1"]
    (∀ place, Part.last? parts place = Part.last? others place)
      ∧ Request.ofParts parts = Request.ofParts others
      ∧ (Request.ofParts parts).keyword = some "lamp"
      ∧ (Schema.retail.explore {} (.ofParts parts)).render
        = (Schema.retail.explore {} (.ofParts others)).render := by
  intro parts others
  have hlast : ∀ place, Part.last? parts place = Part.last? others place := by
    intro place
    cases place with
    | filter label => cases label <;> decide
    | keyword => decide
    | orderBy => decide
    | limit => decide
  obtain ⟨hwords, _, _, _, _, _, _, hothers⟩ := the_last_part_for_each_place_counts parts
  obtain ⟨hsame, htexts⟩ := hothers others hlast
  have hlamp : Part.last? parts .keyword = some "lamp" := by decide
  exact ⟨hlast, hsame, hwords.trans hlamp, htexts {}⟩

end ShopQuery
