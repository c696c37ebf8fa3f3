-- The parameters of an inspection as they are given on a command line: each a text with a name and
-- a value, in any order and with names that may repeat. An inspection looks up the limit and the
-- key of its label and nothing else, so of all that is given only the last values of these count.
import ShopQuery.Command
import ShopQuery.CommandLine.Option
import ShopQuery.Proofs.LastWrite
import ShopQuery.Proofs.Neighbourhood

namespace ShopQuery

/-! ## Reading one parameter -/

namespace CommandLine

/-- A text is cut at its first sign and at no other one. -/
theorem splitAtEquals?_eq_some {cs name value : List Char} :
    splitAtEquals? cs = some (name, value) ↔ cs = name ++ '=' :: value ∧ '=' ∉ name := by
  induction cs generalizing name with
  | nil => simp [splitAtEquals?]
  | cons c rest ih =>
    rw [splitAtEquals?]
    by_cases hc : c = '='
    · subst hc
      rw [beq_self_eq_true, if_pos rfl, Option.some.injEq, Prod.mk.injEq]
      constructor
      · rintro ⟨rfl, rfl⟩
        exact ⟨rfl, List.not_mem_nil⟩
      · rintro ⟨hsplit, hname⟩
        cases name with
        | nil => exact ⟨rfl, (List.cons.inj hsplit).2⟩
        | cons d name =>
          rw [(List.cons.inj hsplit).1] at hname
          exact absurd List.mem_cons_self hname
    · rw [beq_false_of_ne hc, if_neg Bool.false_ne_true, Option.map_eq_some_iff]
      constructor
      · rintro ⟨⟨front, tail⟩, hfront, hsplit⟩
        obtain ⟨rfl, rfl⟩ := Prod.mk.inj hsplit
        obtain ⟨rfl, hnot⟩ := ih.mp hfront
        exact ⟨rfl, List.not_mem_cons_of_ne_of_not_mem (Ne.symm hc) hnot⟩
      · rintro ⟨hsplit, hname⟩
        cases name with
        | nil => exact absurd (List.cons.inj hsplit).1 hc
        | cons d name =>
          obtain ⟨rfl, rfl⟩ := List.cons.inj hsplit
          exact ⟨(name, value), ih.mpr ⟨rfl, fun h => hname (List.mem_cons_of_mem _ h)⟩, rfl⟩

/-- A parameter is a name that is not empty, a sign and a value, and the name has no sign. -/
theorem parameter?_eq_some {text k v : String} : parameter? text = some (k, v) ↔
    k ≠ "" ∧ '=' ∉ k.toList ∧ text = k ++ "=" ++ v := by
  have hparts : text.toList = k.toList ++ '=' :: v.toList ↔ text = k ++ "=" ++ v := by
    rw [← String.toList_inj, String.toList_append, String.toList_append, List.append_assoc]
    rfl
  rw [← hparts]
  unfold parameter?
  constructor
  · intro h
    split at h
    case h_1 c name value hsplit =>
      obtain ⟨rfl, rfl⟩ := Prod.mk.inj (Option.some.inj h)
      obtain ⟨htext, hname⟩ := splitAtEquals?_eq_some.mp hsplit
      simp only [String.toList_ofList]
      exact ⟨by simp [← String.toList_inj], hname, htext⟩
    case h_2 => cases h
  · rintro ⟨hk, hname, htext⟩
    rw [splitAtEquals?_eq_some.mpr ⟨htext, hname⟩]
    obtain ⟨c, name, hcons⟩ :=
      List.exists_cons_of_ne_nil fun h => hk (String.toList_eq_nil_iff.mp h)
    simp only [hcons]
    rw [← hcons, String.ofList_toList, String.ofList_toList]

/-- A text is a parameter exactly if it has a sign and does not begin with one. -/
theorem isSome_parameter?_iff {text : String} : (parameter? text).isSome = true ↔
    '=' ∈ text.toList ∧ text.toList.head? ≠ some '=' := by
  rw [Option.isSome_iff_exists]
  constructor
  · rintro ⟨⟨k, v⟩, h⟩
    obtain ⟨hk, hname, rfl⟩ := parameter?_eq_some.mp h
    obtain ⟨c, name, hcons⟩ :=
      List.exists_cons_of_ne_nil fun h => hk (String.toList_eq_nil_iff.mp h)
    simp only [hcons, String.toList_append, List.cons_append, List.head?_cons, ne_eq,
      Option.some.injEq] at hname ⊢
    exact ⟨by simp, fun hc => hname (hc ▸ List.mem_cons_self)⟩
  · rintro ⟨hsign, hhead⟩
    obtain ⟨name, value, htext, hname⟩ := List.eq_append_cons_of_mem hsign
    refine ⟨(String.ofList name, String.ofList value), parameter?_eq_some.mpr ⟨?_, ?_, ?_⟩⟩
    · intro hempty
      have hnil : name = [] := by simpa [← String.toList_inj] using hempty
      rw [htext, hnil] at hhead
      exact hhead rfl
    · rwa [String.toList_ofList]
    · rw [← String.toList_inj, htext]
      simp

end CommandLine

/-! ## Parameters by name -/

namespace Params

/-- Parameters as states with places, and pairs as writes to them. -/
def places : Places Params (String × String) String String where
  write p e := p.insert e.1 e.2
  read := get?
  place := Prod.fst
  value := Prod.snd
  read_write p e k := by
    rw [get?_insert]
    simp only [eq_comm]

/-- Under each name stands the last value that the pairs give it. -/
def LastOf (p : Params) (pairs : List (String × String)) : Prop :=
  ∀ name, p.get? name = lastAt Prod.fst Prod.snd pairs name

theorem lastOf_ofList (pairs : List (String × String)) : (ofList pairs).LastOf pairs := by
  intro name
  have hempty : places.read {} name = none := rfl
  have hrun := places.read_run {} pairs name
  rw [hempty, Option.or_none] at hrun
  exact hrun

end Params

/-! ## What an inspection needs -/

namespace Schema

variable {s : Schema} {spelling : String}

/-- An inspection of what is spelled so looks up this name: it is the limit or the key of the
label. -/
def Needs (s : Schema) (spelling name : String) : Prop :=
  name = "limit" ∨ ∃ l : Label, l.SpelledBy spelling ∧ (l, name) ∈ s.keys

/-- Parameters that agree on what is needed have the same outcome, be it a plan or a fault. -/
theorem inspect_congr (hk : Keyed s.keys) {p q : Params}
    (h : ∀ name, s.Needs spelling name → p.get? name = q.get? name) :
    s.inspect spelling p = s.inspect spelling q := by
  have hlimit : (Inspection.ofParams spelling p).limit
      = (Inspection.ofParams spelling q).limit := by
    unfold Inspection.ofParams
    rw [h "limit" (Or.inl rfl)]
  cases hfound : s.keyed? spelling with
  | none => rw [inspect_of_none hfound, inspect_of_none hfound]
  | some found =>
    have hkey : s.Needs spelling found.2 := Or.inr ⟨found.1, (keyed?_iff hk).mp hfound⟩
    rw [inspect_of_some hfound, inspect_of_some hfound, h _ hkey, hlimit]

theorem keyed_retail : Keyed retail.keys := (of_ofTables ofTables_retail).2.2

end Schema

/-! ## The command -/

namespace Command

variable {label : String} {pairs others : List (String × String)}

/-- With either list of pairs an inspection prints the same or has the same fault. -/
def Alike (label : String) (pairs others : List (String × String)) : Prop :=
  ∀ settings format, (inspect label pairs).run settings format
    = (inspect label others).run settings format

theorem run_inspect (settings : Settings) (format : Format) (label : String)
    (pairs : List (String × String)) : (inspect label pairs).run settings format
      = ((Schema.retail.inspect label (.ofList pairs)).map fun plan =>
        plan.render.print format).mapError (.inspecting label) := by
  dsimp only [run]
  cases Schema.retail.inspect label (.ofList pairs) with
  | ok plan => rfl
  | error cause => rfl

theorem run_inspect_of_lastOf (settings : Settings) (format : Format) {params : Params}
    (h : params.LastOf pairs) : (inspect label pairs).run settings format
      = ((Schema.retail.inspect label params).map fun plan =>
        plan.render.print format).mapError (.inspecting label) := by
  have hsame : ∀ name, Schema.retail.Needs label name →
      (Params.ofList pairs).get? name = params.get? name :=
    fun name _ => (Params.lastOf_ofList pairs name).trans (h name).symm
  rw [run_inspect, Schema.inspect_congr Schema.keyed_retail hsame]

theorem alike_of_last (h : ∀ name, Schema.retail.Needs label name →
    lastAt Prod.fst Prod.snd pairs name = lastAt Prod.fst Prod.snd others name) :
    Alike label pairs others := by
  intro settings format
  rw [run_inspect, run_inspect]
  congr 2
  apply Schema.inspect_congr Schema.keyed_retail
  intro name hname
  rw [Params.lastOf_ofList, Params.lastOf_ofList, h name hname]

end Command

/-! ## The law -/

/-- A text is a parameter exactly if it has a sign and does not begin with one, and it is cut at
its first sign. An inspection has the outcome that it has with the last value of each name. So it
does not matter what was given under a name before it was given again, in which order two names
are given, and what is given under a name that is neither the limit nor the key of the label. -/
theorem only_the_last_value_of_a_needed_name_counts (label : String) :
    (∀ text, (CommandLine.parameter? text).isSome = true ↔
      '=' ∈ text.toList ∧ text.toList.head? ≠ some '=')
    ∧ (∀ text k v, CommandLine.parameter? text = some (k, v) ↔
      k ≠ "" ∧ '=' ∉ k.toList ∧ text = k ++ "=" ++ v)
    ∧ (∀ pairs, (∃ params : Params, params.LastOf pairs)
      ∧ ∀ params : Params, params.LastOf pairs → ∀ settings format,
        (Command.inspect label pairs).run settings format
          = ((Schema.retail.inspect label params).map fun plan =>
            plan.render.print format).mapError (.inspecting label))
    ∧ (∀ front k v rest, k ∈ rest.map Prod.fst →
      Command.Alike label (front ++ (k, v) :: rest) (front ++ rest))
    ∧ (∀ front p q rest, p.1 ≠ q.1 →
      Command.Alike label (front ++ p :: q :: rest) (front ++ q :: p :: rest))
    ∧ (∀ front p rest, ¬ Schema.retail.Needs label p.1 →
      Command.Alike label (front ++ p :: rest) (front ++ rest))
    ∧ ∀ front p q rest, ¬ Schema.retail.Needs label p.1 → ¬ Schema.retail.Needs label q.1 →
      Command.Alike label (front ++ p :: rest) (front ++ q :: rest) := by
  have hother : ∀ {p : String × String} {name : String}, ¬ Schema.retail.Needs label p.1 →
      Schema.retail.Needs label name → p.1 ≠ name := fun hp hname he => hp (he ▸ hname)
  refine ⟨fun text => CommandLine.isSome_parameter?_iff,
    fun text k v => CommandLine.parameter?_eq_some, ?_, ?_, ?_, ?_, ?_⟩
  · intro pairs
    exact ⟨⟨.ofList pairs, Params.lastOf_ofList pairs⟩, fun params h settings format =>
      Command.run_inspect_of_lastOf settings format h⟩
  · intro front k v rest hk
    exact Command.alike_of_last fun name _ => lastAt_drop_earlier hk front
  · intro front p q rest hpq
    exact Command.alike_of_last fun name _ => lastAt_swap hpq front rest
  · intro front p rest hp
    exact Command.alike_of_last fun name hname => lastAt_drop_other (hother hp hname) front rest
  · intro front p q rest hp hq
    apply Command.alike_of_last
    intro name hname
    rw [lastAt_drop_other (hother hp hname), lastAt_drop_other (hother hq hname)]

/-- A key that is given twice, a color between and a limit behind it: the first value and the
color are forgotten, and the limit may as well stand in front. -/
theorem a_color_does_not_matter_to_an_order :
    Command.Alike "oRDER" [("rs_id", "1"), ("color", "red"), ("rs_id", "o=2"), ("limit", "5")]
        [("limit", "5"), ("rs_id", "o=2")]
      ∧ ∀ settings, (Command.inspect "oRDER"
          [("rs_id", "1"), ("color", "red"), ("rs_id", "o=2"), ("limit", "5")]).run settings .text
        = ((Schema.retail.inspect "oRDER" ⟨[("rs_id", "o=2"), ("limit", "5")]⟩).map fun plan =>
          plan.render.print .text).mapError (.inspecting "oRDER") := by
  have hcolor : ¬ Schema.retail.Needs "oRDER" "color" := by
    have hkeys : ∀ row ∈ Schema.retailKeys, row.2 ≠ "color" := by decide
    rintro (hlimit | ⟨l, _, hrow⟩)
    · exact absurd hlimit (by decide)
    · exact hkeys _ hrow rfl
  obtain ⟨_, _, hrun, hearlier, hswap, hother, _⟩ :=
    only_the_last_value_of_a_needed_name_counts "oRDER"
  have hfirst := hearlier [] "rs_id" "1" [("color", "red"), ("rs_id", "o=2"), ("limit", "5")]
    (by decide)
  have hsecond := hother [] ("color", "red") [("rs_id", "o=2"), ("limit", "5")] hcolor
  have hthird := hswap [] ("rs_id", "o=2") ("limit", "5") [] (by decide)
  have halike : Command.Alike "oRDER"
      [("rs_id", "1"), ("color", "red"), ("rs_id", "o=2"), ("limit", "5")]
      [("limit", "5"), ("rs_id", "o=2")] := fun settings format =>
    ((hfirst settings format).trans (hsecond settings format)).trans (hthird settings format)
  have hmap : Params.ofList [("limit", "5"), ("rs_id", "o=2")]
      = ⟨[("rs_id", "o=2"), ("limit", "5")]⟩ := by decide
  have hlast := Params.lastOf_ofList [("limit", "5"), ("rs_id", "o=2")]
  rw [hmap] at hlast
  exact ⟨halike, fun settings => (halike settings .text).trans ((hrun _).2 _ hlast settings .text)⟩

/-- A sign behind the first character does not make a text a parameter: here the first character
is a sign too, so the name is empty. -/
theorem a_sign_further_on_is_not_enough :
    ¬ ((CommandLine.parameter? "=a=b").isSome = true ↔
      ∃ front rest, front ≠ [] ∧ "=a=b".toList = front ++ '=' :: rest) := by
  have hrefused : CommandLine.parameter? "=a=b" = none := by decide
  rw [hrefused]
  intro h
  cases h.mpr ⟨['=', 'a'], ['b'], by decide, by decide⟩

end ShopQuery
