-- Requests as JSON texts. A request may be written in many ways: its members and its filters in
-- any order, what is missing as null or not at all, and other members beside. All of them are
-- read as the request itself, so no two requests share a text.
import ShopQuery.Json.Decode
import ShopQuery.Json.Encode
import ShopQuery.Proofs.JsonValues
import ShopQuery.Proofs.LastWrite

namespace ShopQuery

open Json (Content Spells Value)

/-! ## Objects -/

namespace Json

theorem mapM_map {α β γ : Type} {f : β → α} {g : α → Option γ} {h : β → γ}
    (hfg : ∀ x, g (f x) = some (h x)) (xs : List β) : (xs.map f).mapM g = some (xs.map h) := by
  induction xs with
  | nil => rfl
  | cons x xs ih =>
    rw [List.map_cons, List.mapM_cons, hfg, ih]
    rfl

theorem namedMembers?_ofMembers (members : List (String × Value)) :
    namedMembers? (members.map fun m => (some m.1, m.2)) = some members := by
  have hnamed := mapM_map (g := fun m : Content × Value => m.1.map fun name => (name, m.2))
    (f := fun m : String × Value => (some m.1, m.2)) (h := id) (fun _ => rfl) members
  rwa [List.map_id] at hnamed

/-- The member with a name, where no two members have it. -/
theorem member?_ofMembers {members known : List (String × Value)} {name : String}
    (h : (members.filter (·.1 == name)).Perm known) (hone : known.length ≤ 1) :
    member? (members.map fun m => (some m.1, m.2)) name = some (known.head?.map Prod.snd) := by
  have hfilter :
      (members.map fun m => ((some m.1, m.2) : Content × Value)).filter (·.1 == some name)
      = (members.filter (·.1 == name)).map fun m => (some m.1, m.2) := by
    rw [List.filter_map]
    congr 1
  unfold member?
  rw [hfilter]
  cases known with
  | nil =>
    rw [h.eq_nil]
    rfl
  | cons m rest =>
    obtain rfl : rest = [] := List.length_eq_zero_iff.mp (by rw [List.length_cons] at hone; omega)
    rw [List.perm_singleton.mp h]
    rfl

end Json

/-! ## How requests are written -/

/-- The member for a text that may be missing, in one of its forms. -/
inductive WritesText (name : String) : Option String → List (String × Value) → Prop
  | text (t : String) : WritesText name (some t) [(name, .string (some t))]
  | null : WritesText name none [(name, .null)]
  | omitted : WritesText name none []

/-- The member for filters, which may stand in any order. -/
inductive WritesFilters : Filters → List (String × Value) → Prop
  | listed {f : Filters} {entries : List (Label × String)} (h : entries.Perm f.toList) :
    WritesFilters f
      [("filters", .ofMembers (entries.map fun e => (e.1.name, .string (some e.2))))]
  | omitted : WritesFilters .empty []

/-- The names of the members of a request. -/
def requestNames : List String := ["keyword", "filters", "order_by", "limit"]

/-- The members that a request is written with: its own in one of their forms and others with
names of their own, all in any order. -/
inductive Request.Writes (r : Request) : List (String × Value) → Prop
  | members {keyword filters orderBy limit others members : List (String × Value)}
      (hkeyword : WritesText "keyword" r.keyword keyword)
      (hfilters : WritesFilters r.filters filters)
      (horder : WritesText "order_by" r.orderBy orderBy)
      (hlimit : WritesText "limit" r.limit limit)
      (hothers : ∀ m ∈ others, m.1 ∉ requestNames)
      (order : members.Perm (keyword ++ filters ++ orderBy ++ limit ++ others)) :
      Request.Writes r members

/-! ## Reading filters -/

namespace Filters

/-- Filters as states with places. -/
def places : Places Filters (Label × String) Label String where
  write f e := f.insert e.1 e.2
  read := get?
  place := Prod.fst
  value := Prod.snd
  read_write f e k := by
    rw [get?_insert]
    by_cases h : k = e.1
    · rw [if_pos h, if_pos h.symm]
    · rw [if_neg h, if_neg (Ne.symm h)]

theorem mem_toList {f : Filters} {l : Label} {t : String} :
    (l, t) ∈ f.toList ↔ f.get? l = some t := by
  unfold toList
  simp [List.mem_filterMap, Label.mem_all]

theorem nodup_toList (f : Filters) : (f.toList.map Prod.fst).Nodup := by
  have hlabels : ∀ ls : List Label,
      (ls.filterMap fun l => (f.get? l).map fun t => (l, t)).map Prod.fst
      = ls.filter fun l => (f.get? l).isSome := by
    intro ls
    induction ls with
    | nil => rfl
    | cons l ls ih =>
      cases hl : f.get? l <;> simp [hl, ih]
  unfold toList
  rw [hlabels]
  exact (by decide : Label.all.Nodup).filter _

/-- Filters listed in any order are the filters. -/
theorem ofList_of_perm {f : Filters} {entries : List (Label × String)}
    (h : entries.Perm f.toList) : ofList entries = f := by
  have hnodup : (entries.map Prod.fst).Nodup := (h.map _).nodup_iff.mpr f.nodup_toList
  ext1
  funext l
  have hread : (ofList entries).get? l = lastAt Prod.fst Prod.snd entries l := by
    have hrun := places.read_run .empty entries l
    have hempty : places.read .empty l = none := rfl
    rwa [hempty, Option.or_none] at hrun
  rw [hread]
  ext t
  rw [lastAt_of_nodup hnodup, ← mem_toList, ← h.mem_iff]
  constructor
  · rintro ⟨e, he, rfl, rfl⟩
    exact he
  · intro he
    exact ⟨_, he, rfl, rfl⟩

theorem ofJson?_of_perm {f : Filters} {entries : List (Label × String)}
    (h : entries.Perm f.toList) :
    ofJson? (.ofMembers (entries.map fun e => (e.1.name, .string (some e.2)))) = some f := by
  have hentries := Json.mapM_map
    (f := fun e : Label × String => ((some e.1.name, .string (some e.2)) : Content × Value))
    (g := fun m => do
      let label ← Label.ofName? (← m.1)
      return (label, ← m.2.text?))
    (h := id) (fun e => by simp [Value.text?]) entries
  rw [List.map_id] at hentries
  unfold Value.ofMembers ofJson?
  rw [List.map_map]
  exact (congrArg (·.bind fun es => some (ofList es)) hentries).trans
    (congrArg some (ofList_of_perm h))

end Filters

/-! ## Reading requests -/

theorem WritesText.length_le {name : String} {t : Option String} {known : List (String × Value)}
    (h : WritesText name t known) : known.length ≤ 1 := by
  cases h <;> simp

theorem WritesText.name_eq {name : String} {t : Option String} {known : List (String × Value)}
    (h : WritesText name t known) : ∀ m ∈ known, m.1 = name := by
  cases h <;> simp

theorem WritesFilters.length_le {f : Filters} {known : List (String × Value)}
    (h : WritesFilters f known) : known.length ≤ 1 := by
  cases h <;> simp

theorem WritesFilters.name_eq {f : Filters} {known : List (String × Value)}
    (h : WritesFilters f known) : ∀ m ∈ known, m.1 = "filters" := by
  cases h <;> simp

theorem WritesFilters.read_eq {f : Filters} {known : List (String × Value)}
    (h : WritesFilters f known) : known.head?.map Prod.snd = none ∧ f = .empty
      ∨ ∃ v, known.head?.map Prod.snd = some v ∧ Filters.ofJson? v = some f := by
  cases h with
  | omitted => exact Or.inl ⟨rfl, rfl⟩
  | listed h => exact Or.inr ⟨_, rfl, Filters.ofJson?_of_perm h⟩

theorem WritesText.optionalMember?_eq {name : String} {t : Option String}
    {known members : List (String × Value)} (h : WritesText name t known)
    (hmembers : (members.filter (·.1 == name)).Perm known) :
    Json.optionalMember? (members.map fun m => (some m.1, m.2)) name = some t := by
  unfold Json.optionalMember?
  rw [Json.member?_ofMembers hmembers h.length_le]
  cases h <;> rfl

/-- Members that share a name are all kept under that name, and none is kept under another. -/
theorem filter_name {known : List (String × Value)} {own : String} (h : ∀ m ∈ known, m.1 = own)
    (name : String) : known.filter (·.1 == name) = if own = name then known else [] := by
  split
  case isTrue heq =>
    subst heq
    exact List.filter_eq_self.mpr fun m hm => beq_iff_eq.mpr (h m hm)
  case isFalse hne =>
    rw [List.filter_eq_nil_iff]
    intro m hm
    rw [h m hm, beq_iff_eq]
    exact hne

theorem filter_others {others : List (String × Value)} (h : ∀ m ∈ others, m.1 ∉ requestNames)
    {name : String} (hname : name ∈ requestNames) : others.filter (·.1 == name) = [] := by
  rw [List.filter_eq_nil_iff]
  intro m hm
  rw [beq_iff_eq]
  rintro rfl
  exact h m hm hname

namespace Request

/-- However the members of a request are written, they are read as the request. -/
theorem Writes.ofJson?_eq {r : Request} {members : List (String × Value)} (h : r.Writes members) :
    ofJson? (.ofMembers members) = some r := by
  obtain ⟨hkeyword, hfilters, horder, hlimit, hothers, order⟩ := h
  rename_i keyword filters orderBy limit others
  have hunder : ∀ name ∈ requestNames, (members.filter (·.1 == name)).Perm
      ((if "keyword" = name then keyword else []) ++ (if "filters" = name then filters else [])
        ++ (if "order_by" = name then orderBy else [])
        ++ (if "limit" = name then limit else [])) := by
    intro name hname
    have hperm := order.filter (·.1 == name)
    simp only [List.filter_append, filter_name hkeyword.name_eq, filter_name hfilters.name_eq,
      filter_name horder.name_eq, filter_name hlimit.name_eq, filter_others hothers hname,
      List.append_nil] at hperm
    exact hperm
  have hk := hkeyword.optionalMember?_eq (by simpa using hunder "keyword" (by decide))
  have ho := horder.optionalMember?_eq (by simpa using hunder "order_by" (by decide))
  have hl := hlimit.optionalMember?_eq (by simpa using hunder "limit" (by decide))
  have hf := Json.member?_ofMembers (by simpa using hunder "filters" (by decide))
    hfilters.length_le
  unfold Value.ofMembers ofJson?
  simp only [Json.namedMembers?_ofMembers, hk, ho, hl, hf]
  rcases hfilters.read_eq with ⟨hnone, hempty⟩ | ⟨v, hv, hread⟩
  · rw [hnone, ← hempty]
    rfl
  · simp [hv, hread]

theorem Writes.ofJsonText?_eq {r : Request} {members : List (String × Value)} {s : String}
    (h : r.Writes members) (hs : Spells (Value.ofMembers members).tokens s.toList) :
    ofJsonText? s = some r := by
  unfold ofJsonText?
  rw [Value.read?_of_spells hs]
  exact h.ofJson?_eq

/-! ## Requests as they are serialized -/

theorem writes_toJson (r : Request) :
    r.Writes
      [ ("keyword", .ofText? r.keyword), ("filters", r.filters.toJson),
        ("order_by", .ofText? r.orderBy), ("limit", .ofText? r.limit) ] := by
  have htext : ∀ (name : String) (t : Option String), WritesText name t [(name, .ofText? t)] := by
    rintro name (_ | t)
    · exact .null
    · exact .text t
  have hothers : ∀ m ∈ ([] : List (String × Value)), m.1 ∉ requestNames := nofun
  exact .members (htext _ _) (.listed (.refl _)) (htext _ _) (htext _ _) hothers (.refl _)

/-- The tokens of a serialized request are strings, nulls and marks. -/
theorem proper_toJson (r : Request) : ∀ t ∈ r.toJson.tokens, t.Proper := by
  have htext : ∀ (t : Option String), ∀ token ∈ (Value.ofText? t).tokens, token.Proper := by
    rintro (_ | t) <;> exact List.forall_mem_singleton.mpr trivial
  have hfilters : ∀ token ∈ r.filters.toJson.tokens, token.Proper := by
    apply Json.proper_object
    intro m hm
    simp only [List.mem_map] at hm
    obtain ⟨_, ⟨e, _, rfl⟩, rfl⟩ := hm
    exact List.forall_mem_singleton.mpr trivial
  apply Json.proper_object
  simp only [List.map_cons, List.map_nil, List.forall_mem_cons]
  exact ⟨htext _, hfilters, htext _, htext _, List.forall_mem_nil _⟩

theorem ofJsonText?_text (r : Request) : ofJsonText? r.toJson.text = some r :=
  r.writes_toJson.ofJsonText?_eq (Value.spells_text r.proper_toJson)

end Request

/-! ## The law -/

/-- A request is read back from its JSON text, with what is missing still missing and what is
empty still empty, so no two requests share a text. And it is read from every text that spells
its members in any order, the filters in any order, what is missing as null or not at all, empty
filters or none, and any other members beside. -/
theorem requests_come_back_from_their_texts :
    (∀ r : Request, Request.ofJsonText? r.toJson.text = some r)
    ∧ (∀ q r : Request, q.toJson.text = r.toJson.text ↔ q = r)
    ∧ ∀ (r : Request) (members : List (String × Value)) (s : String),
        r.Writes members → Spells (Value.ofMembers members).tokens s.toList →
          Request.ofJsonText? s = some r := by
  refine ⟨Request.ofJsonText?_text, fun q r => ⟨fun h => ?_, fun h => h ▸ rfl⟩,
    fun r members s => Request.Writes.ofJsonText?_eq⟩
  have hread := q.ofJsonText?_text
  rw [h, r.ofJsonText?_text] at hread
  exact (Option.some.inj hread).symm

/-- Nothing but an empty limit and a filter, with another member in front and the rest left out. -/
theorem a_request_is_read_among_other_members :
    ∃ (r : Request) (members : List (String × Value)) (s : String), r.Writes members
      ∧ Spells (Value.ofMembers members).tokens s.toList
      ∧ s = "\x7b\"page\":[null,\x7b\x7d],\"limit\":\"\","
        ++ "\"filters\":\x7b\"Keyword\":\"a\\n\"\x7d\x7d"
      ∧ r.limit = some "" ∧ r.keyword = none ∧ Request.ofJsonText? s = some r := by
  let r : Request := { filters := Filters.empty.insert .keyword "a\n", limit := some "" }
  let members : List (String × Value) :=
    [ ("page", .array [.null, .object []]), ("limit", .string (some "")),
      ("filters", .ofMembers [("Keyword", .string (some "a\n"))]) ]
  have hentries : [(Label.keyword, "a\n")].Perm r.filters.toList := .refl _
  have hfilters : WritesFilters r.filters
      [("filters", .ofMembers [("Keyword", .string (some "a\n"))])] := .listed hentries
  have hothers : ∀ m ∈ [("page", Value.array [.null, .object []])], m.1 ∉ requestNames := by
    simp [requestNames]
  have hwrites : r.Writes members := by
    have horder : members.Perm members.reverse := members.reverse_perm.symm
    exact .members .omitted hfilters .omitted (.text "") hothers horder
  have hspells : Spells (Value.ofMembers members).tokens (Value.ofMembers members).text.toList := by
    apply Value.spells_text
    apply Json.proper_object
    simp [members, Value.tokens, Json.furtherItems, Value.ofMembers, Json.furtherMembers,
      Json.Token.Proper]
  refine ⟨r, members, (Value.ofMembers members).text, hwrites, hspells, by decide +kernel, rfl,
    rfl, ?_⟩
  exact requests_come_back_from_their_texts.2.2 r members _ hwrites hspells

end ShopQuery
