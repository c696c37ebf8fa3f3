-- JSON values and their tokens. Reading the tokens of a value gives the value back at any depth,
-- and so does reading any text that spells them; the compact text is one of these texts.
import ShopQuery.Proofs.JsonSpelling

namespace ShopQuery.Json

/-! ## Reading tokens -/

namespace Reader

/-- Where an array may end, a value is read as its first item. -/
theorem run_firstItem (v : Value) (stack : List Frame) :
    v.tokens.foldlM step? (.firstItem stack)
      = v.tokens.foldlM step? (.value (.array [] :: stack)) := by
  cases v with
  | array items => cases items <;> rfl
  | object members => cases members <;> rfl
  | _ => rfl

mutual

/-- The tokens of a value are read as the value. -/
theorem run_value (v : Value) (stack : List Frame) :
    v.tokens.foldlM step? (.value stack) = some (give v stack) := by
  cases v with
  | null | bool b | number digits | string content => rfl
  | array items =>
    cases items with
    | nil => rfl
    | cons v items =>
      change (v.tokens ++ furtherItems items).foldlM step? (.firstItem stack) = _
      rw [List.foldlM_append, run_firstItem, run_value v]
      exact run_furtherItems items [v] stack
  | object members =>
    cases members with
    | nil => rfl
    | cons m members =>
      change (m.2.tokens ++ furtherMembers members).foldlM step?
        (.value (.object [] m.1 :: stack)) = _
      rw [List.foldlM_append, run_value m.2]
      exact run_furtherMembers members [m] stack

theorem run_furtherItems (items done : List Value) (stack : List Frame) :
    (furtherItems items).foldlM step? (.afterItem done stack)
      = some (give (.array (done.reverse ++ items)) stack) := by
  cases items with
  | nil =>
    rw [List.append_nil]
    rfl
  | cons v items =>
    change (v.tokens ++ furtherItems items).foldlM step? (.value (.array done :: stack)) = _
    rw [List.foldlM_append, run_value v]
    have hrest := run_furtherItems items (v :: done) stack
    rw [List.reverse_cons, List.append_assoc] at hrest
    exact hrest

theorem run_furtherMembers (members done : List (Content × Value)) (stack : List Frame) :
    (furtherMembers members).foldlM step? (.afterMember done stack)
      = some (give (.object (done.reverse ++ members)) stack) := by
  cases members with
  | nil =>
    rw [List.append_nil]
    rfl
  | cons m members =>
    change (m.2.tokens ++ furtherMembers members).foldlM step?
      (.value (.object done m.1 :: stack)) = _
    rw [List.foldlM_append, run_value m.2]
    have hrest := run_furtherMembers members (m :: done) stack
    rw [List.reverse_cons, List.append_assoc] at hrest
    exact hrest

end

end Reader

theorem Value.ofTokens?_tokens (v : Value) : ofTokens? v.tokens = some v := by
  unfold ofTokens?
  rw [Reader.run_value]
  rfl

/-- Any text that spells the tokens of a value is read as the value. -/
theorem Value.read?_of_spells {v : Value} {s : String} (h : Spells v.tokens s.toList) :
    read? s = some v := by
  unfold read?
  rw [tokens?_of_spells h, Option.bind_some, ofTokens?_tokens]

/-! ## The compact text of a value -/

/-- A number is spelled as a number. -/
def Token.Proper : Token → Prop
  | number digits => IsNumber digits.toList
  | _ => True

theorem Token.spelled_text {t : Token} (h : t.Proper) : t.Spelled t.text := by
  cases t with
  | openObject => exact .openObject
  | closeObject => exact .closeObject
  | openArray => exact .openArray
  | closeArray => exact .closeArray
  | colon => exact .colon
  | comma => exact .comma
  | null => exact .null
  | bool value => cases value <;> constructor
  | number digits =>
    have hnumber := Spelled.number h
    rwa [String.ofList_toList] at hnumber
  | string content =>
    cases content with
    | none =>
      have hhalf : Piece.Spelled (.unit 0xD800) ['\x5c', 'u', 'd', '8', '0', '0'] :=
        @Piece.Spelled.long 'd' '8' '0' '0' 13 8 0 0 rfl rfl rfl rfl
      exact .string (.cons hhalf .nil)
    | some content => exact spelled_quote content

/-- The text of tokens that follow a value: they end it, whatever it is. -/
structure Follows (ts : List Token) (cs : List Char) : Prop where
  spells : Spells ts cs
  breaks : Breaks cs

/-- A token with an end of its own ends whatever stands in front of it. -/
theorem Token.breaks_text {t : Token} (closed : t.isOpen = false) (cs : List Char) :
    Breaks (t.text ++ cs) := by
  have hfirst : ∃ c rest, t.text = c :: rest ∧ c ∈ breaks := by
    cases t with
    | null | bool value | number digits => cases closed
    | string content =>
      cases content with
      | none => exact ⟨_, _, rfl, by decide⟩
      | some content => exact ⟨_, _, String.toList_ofList, by decide⟩
    | _ => exact ⟨_, _, rfl, by decide⟩
  obtain ⟨c, rest, htext, hc⟩ := hfirst
  rw [htext]
  rintro d ⟨⟩
  exact hc

theorem Follows.cons (t : Token) {ts : List Token} {cs : List Char} (closed : t.isOpen = false)
    (proper : t.Proper) (h : Spells ts cs) : Follows (t :: ts) (t.text ++ cs) := by
  refine ⟨.cons (Token.spelled_text proper) h fun hopen => ?_, Token.breaks_text closed cs⟩
  rw [closed] at hopen
  cases hopen

mutual

/-- The compact text of a value, with a text behind it that ends it. -/
theorem spells_value (v : Value) (hv : ∀ t ∈ v.tokens, t.Proper) {ts : List Token}
    {cs : List Char} (h : Follows ts cs) :
    Spells (v.tokens ++ ts) (v.tokens.flatMap Token.text ++ cs) := by
  have hsingle : ∀ t : Token, t.Proper → Spells ([t] ++ ts) ([t].flatMap Token.text ++ cs) := by
    intro t ht
    rw [List.flatMap_singleton]
    exact .cons (Token.spelled_text ht) h.spells fun _ => h.breaks
  cases v with
  | null | bool b | number digits | string content => exact hsingle _ (hv _ List.mem_cons_self)
  | array items =>
    cases items with
    | nil =>
      have hclose := Follows.cons .closeArray rfl trivial h.spells
      exact (Follows.cons .openArray rfl trivial hclose.spells).spells
    | cons v items =>
      simp only [Value.tokens, List.forall_mem_cons, List.forall_mem_append] at hv
      simp only [Value.tokens, List.cons_append, List.append_assoc, List.flatMap_cons,
        List.flatMap_append]
      have hrest := spells_furtherItems items hv.2.2 h
      exact (Follows.cons .openArray rfl trivial (spells_value v hv.2.1 hrest)).spells
  | object members =>
    cases members with
    | nil =>
      have hclose := Follows.cons .closeObject rfl trivial h.spells
      exact (Follows.cons .openObject rfl trivial hclose.spells).spells
    | cons m members =>
      simp only [Value.tokens, List.forall_mem_cons, List.forall_mem_append] at hv
      simp only [Value.tokens, List.cons_append, List.append_assoc, List.flatMap_cons,
        List.flatMap_append]
      have hrest := spells_furtherMembers members hv.2.2.2.2 h
      have hcolon := Follows.cons .colon rfl trivial (spells_value m.2 hv.2.2.2.1 hrest)
      have hname := Follows.cons (.string m.1) rfl trivial hcolon.spells
      exact (Follows.cons .openObject rfl trivial hname.spells).spells

theorem spells_furtherItems (items : List Value) (hv : ∀ t ∈ furtherItems items, t.Proper)
    {ts : List Token} {cs : List Char} (h : Follows ts cs) :
    Follows (furtherItems items ++ ts) ((furtherItems items).flatMap Token.text ++ cs) := by
  cases items with
  | nil => exact Follows.cons .closeArray rfl trivial h.spells
  | cons v items =>
    simp only [furtherItems, List.forall_mem_cons, List.forall_mem_append] at hv
    simp only [furtherItems, List.cons_append, List.append_assoc, List.flatMap_cons,
      List.flatMap_append]
    have hrest := spells_furtherItems items hv.2.2 h
    exact Follows.cons .comma rfl trivial (spells_value v hv.2.1 hrest)

theorem spells_furtherMembers (members : List (Content × Value))
    (hv : ∀ t ∈ furtherMembers members, t.Proper) {ts : List Token} {cs : List Char}
    (h : Follows ts cs) :
    Follows (furtherMembers members ++ ts)
      ((furtherMembers members).flatMap Token.text ++ cs) := by
  cases members with
  | nil => exact Follows.cons .closeObject rfl trivial h.spells
  | cons m members =>
    simp only [furtherMembers, List.forall_mem_cons, List.forall_mem_append] at hv
    simp only [furtherMembers, List.cons_append, List.append_assoc, List.flatMap_cons,
      List.flatMap_append]
    have hrest := spells_furtherMembers members hv.2.2.2.2 h
    have hcolon := Follows.cons .colon rfl trivial (spells_value m.2 hv.2.2.2.1 hrest)
    have hname := Follows.cons (.string m.1) rfl trivial hcolon.spells
    exact Follows.cons .comma rfl trivial hname.spells

end

theorem proper_furtherMembers {members : List (Content × Value)}
    (h : ∀ m ∈ members, ∀ t ∈ m.2.tokens, t.Proper) : ∀ t ∈ furtherMembers members, t.Proper := by
  induction members with
  | nil => exact List.forall_mem_singleton.mpr trivial
  | cons m members ih =>
    rw [List.forall_mem_cons] at h
    simp only [furtherMembers, List.forall_mem_cons, List.forall_mem_append]
    exact ⟨trivial, trivial, trivial, h.1, ih h.2⟩

/-- An object is as proper as the values of its members. -/
theorem proper_object {members : List (Content × Value)}
    (h : ∀ m ∈ members, ∀ t ∈ m.2.tokens, t.Proper) :
    ∀ t ∈ (Value.object members).tokens, t.Proper := by
  cases members with
  | nil => exact List.forall_mem_cons.mpr ⟨trivial, List.forall_mem_singleton.mpr trivial⟩
  | cons m members =>
    rw [List.forall_mem_cons] at h
    simp only [Value.tokens, List.forall_mem_cons, List.forall_mem_append]
    exact ⟨trivial, trivial, trivial, h.1, proper_furtherMembers h.2⟩

/-- The compact text spells the value. -/
theorem Value.spells_text {v : Value} (h : ∀ t ∈ v.tokens, t.Proper) :
    Spells v.tokens v.text.toList := by
  have hspells := spells_value v h ⟨.nil, nofun⟩
  rwa [List.append_nil, List.append_nil, ← String.toList_ofList (l := List.flatMap _ _)] at hspells

end ShopQuery.Json
