-- The arguments of an exploring command: options with their values behind a sign, and the words of
-- the search. Each argument fills a place of its own as it is read, and nothing is left over from
-- it, so the arguments may come in any order, and a value may be any text.
import ShopQuery.Proofs.Parameters
import ShopQuery.Proofs.RequestParts
import ShopQuery.Program

namespace ShopQuery

/-! ## The request of an exploration -/

/-- The place of a request that the value of the option is meant for. -/
def Flag.place : Flag → Place
  | limit => .limit
  | cancel => .filter .cancel
  | order => .filter .order
  | returned => .filter .returned
  | shipment => .filter .shipment
  | storage => .filter .storage
  | supplier => .filter .supplier
  | orderBy => .orderBy

theorem Place.place_part {place : Place} (h : place ≠ .filter .keyword) (text : String) :
    (place.part text).place = place := by
  cases place with
  | filter label =>
    cases label
    case keyword => exact absurd rfl h
    all_goals rfl
  | _ => rfl

@[simp] theorem Place.text_part (place : Place) (text : String) :
    (place.part text).text = text := by
  cases place <;> rfl

namespace Request

/-- The request with a text in a place, if there is a text. -/
def fill (r : Request) (f : Place × Option String) : Request :=
  f.2.elim r fun text => r.add (f.1.part text)

/-- Of places that are filled one after another, each holds its own text. -/
theorem said_fills {fills : List (Place × Option String)} (honce : (fills.map Prod.fst).Nodup)
    (hkeyword : .filter .keyword ∉ fills.map Prod.fst) (r : Request) (place : Place) :
    (fills.foldl fill r).said place = (fills.lookup place).join.or (r.said place) := by
  induction fills generalizing r with
  | nil => rfl
  | cons f rest ih =>
    obtain ⟨own, text⟩ := f
    rw [List.map_cons, List.nodup_cons] at honce
    rw [List.map_cons, List.mem_cons, not_or] at hkeyword
    have hsaid : (r.fill (own, text)).said place
        = if own = place then text.or (r.said place) else r.said place := by
      cases text with
      | none => simp [fill]
      | some text =>
        simp [fill, said_add, Place.place_part (Ne.symm hkeyword.1)]
    rw [List.foldl_cons, ih honce.2 hkeyword.2, hsaid, List.lookup_cons]
    by_cases h : own = place
    · subst h
      have hrest : rest.lookup own = none := by
        rw [List.lookup_eq_none_iff]
        intro f hf
        rw [bne_iff_ne]
        exact fun h => honce.1 (List.mem_map.mpr ⟨f, hf, h.symm⟩)
      simp [hrest]
    · rw [if_neg h, beq_false_of_ne (Ne.symm h)]

end Request

namespace Exploration

/-- The places of a request with what an exploration has for them. -/
def fills (e : Exploration) : List (Place × Option String) :=
  (.keyword, e.keyword) :: (e.filters.map fun f => (Place.filter f.1, f.2))
    ++ [(.orderBy, e.orderBy), (.limit, e.limit)]

theorem said_request (e : Exploration) (place : Place) :
    e.request.said place = (e.fills.lookup place).join := by
  have hrequest : e.request = e.fills.foldl Request.fill {} := rfl
  have honce : (e.fills.map Prod.fst).Nodup := by
    simp [fills, filters]
  have hkeyword : .filter .keyword ∉ e.fills.map Prod.fst := by
    simp [fills, filters]
  rw [hrequest, Request.said_fills honce hkeyword, Request.said_empty, Option.or_none]

theorem said_request_flag (e : Exploration) (flag : Flag) :
    e.request.said flag.place = e.value? flag := by
  rw [said_request]
  cases flag <;> rfl

theorem keyword_request (e : Exploration) : e.request.keyword = e.keyword :=
  e.said_request .keyword

/-- A label that no option filters by has no filter. -/
theorem get?_request_other {label : Label} (h : ∀ flag : Flag, flag.place ≠ .filter label)
    (e : Exploration) : e.request.filters.get? label = none := by
  refine (e.said_request (.filter label)).trans ?_
  cases label with
  | keyword | product => rfl
  | cancel => exact absurd rfl (h .cancel)
  | order => exact absurd rfl (h .order)
  | returned => exact absurd rfl (h .returned)
  | shipment => exact absurd rfl (h .shipment)
  | storage => exact absurd rfl (h .storage)
  | supplier => exact absurd rfl (h .supplier)

end Exploration

namespace CommandLine

/-! ## Arguments -/

/-- An argument behind `explore`. -/
inductive Argument
  | option (flag : Flag) (value : String)
  | words (text : String)
  deriving DecidableEq

namespace Argument

/-- The argument as it is written. -/
def text : Argument → String
  | option flag value => "--" ++ flag.name ++ "=" ++ value
  | words text => text

/-- The option that the argument gives a value to; the words have none. -/
def flag? : Argument → Option Flag
  | option flag _ => some flag
  | words _ => none

/-- Words do not begin like an option. -/
def Plain : Argument → Prop
  | option _ _ => True
  | words text => text.toList.head? ≠ some '-'

instance : DecidablePred Plain
  | option _ _ => isTrue trivial
  | words text => inferInstanceAs (Decidable (text.toList.head? ≠ some '-'))

/-- The text that the argument gives. -/
def value : Argument → String
  | option _ value => value
  | words text => text

theorem toList_text_option (flag : Flag) (value : String) : (option flag value).text.toList
    = '-' :: '-' :: (flag.name.toList ++ '=' :: value.toList) := by
  unfold text
  rw [String.toList_append, String.toList_append, String.toList_append, List.append_assoc,
    List.append_assoc]
  rfl

/-- No argument is taken for the end of the options. -/
theorem text_ne_end {a : Argument} (h : a.Plain) : a.text ≠ "--" := by
  intro hend
  have hchars := congrArg String.toList hend
  cases a with
  | option flag value =>
    rw [toList_text_option] at hchars
    have hsign : flag.name.toList ++ '=' :: value.toList = [] :=
      (List.cons.inj (List.cons.inj hchars).2).2
    exact List.append_ne_nil_of_right_ne_nil _ (List.cons_ne_nil _ _) hsign
  | words text =>
    have htext : text.toList = "--".toList := hchars
    apply h
    rw [htext]
    rfl

end Argument

/-- The request says what the arguments say, each in its place, and nothing else. -/
structure Holds (r : Request) (arguments : List Argument) : Prop where
  words : ∀ text, r.keyword = some text ↔ .words text ∈ arguments
  options : ∀ (flag : Flag) value, r.said flag.place = some value ↔ .option flag value ∈ arguments
  others : ∀ label, (∀ flag : Flag, flag.place ≠ .filter label) → r.filters.get? label = none

/-! ## Reading an argument -/

theorem fill_free {α β : Type} {place : Option α} (h : place = none) (value : β) (fault : Stop) :
    fill place (some value) fault = .ok value := by
  rw [h]
  rfl

/-- The name of an option is read as its setting. -/
theorem long?_name (flag : Flag) :
    Level.explore.long? flag.name = some (.setting (.exploring flag)) := by
  cases flag <;> rfl

theorem sign_not_mem_name (flag : Flag) : '=' ∉ flag.name.toList := by
  cases flag <;> decide

/-- The exploration with one argument more. -/
def Argument.addTo (e : Exploration) : Argument → Exploration
  | option flag value => e.withValue flag value
  | words text => e.withKeyword text

/-- What an exploration has for an option, or for the words. -/
def said (e : Exploration) : Option Flag → Option String
  | some flag => e.value? flag
  | none => e.keyword

theorem said_empty (place : Option Flag) : said {} place = none := by
  rcases place with _ | flag
  · rfl
  · cases flag <;> rfl

/-- Explorations as states with places, and arguments as writes to them. -/
def places : Places Exploration Argument (Option Flag) String where
  write := Argument.addTo
  read := said
  place := Argument.flag?
  value := Argument.value
  read_write e a place := by
    cases a <;> cases place <;> simp [Argument.addTo, said, Argument.flag?, Argument.value]

namespace Reading

variable {r : Reading}

theorem settle_of_nothing (h : r.pending = .nothing) : r.settle = .ok r.given := by
  unfold settle
  rw [h]

theorem argument_option {flag : Flag} (hpending : r.pending = .nothing)
    (hfree : r.given.exploration.value? flag = none) (value : String) :
    r.argument .explore (Argument.option flag value).text = .ok { given :=
      { r.given with exploration := r.given.exploration.withValue flag value } } := by
  have hcut : splitAtEquals? (flag.name.toList ++ '=' :: value.toList)
      = some (flag.name.toList, value.toList) :=
    splitAtEquals?_eq_some.mpr ⟨rfl, sign_not_mem_name flag⟩
  have hassigned : r.assign (.exploring flag) value = .ok { given :=
      { r.given with exploration := r.given.exploration.withValue flag value } } := by
    unfold assign
    rw [settle_of_nothing hpending]
    dsimp only [bind, Except.bind]
    rw [Given.store, fill_free hfree]
    rfl
  unfold argument
  rw [Argument.toList_text_option]
  simp only [hcut, String.ofList_toList, long, long?_name]
  exact hassigned

theorem argument_words {text : String} (hplain : (Argument.words text).Plain)
    (hpending : r.pending = .nothing) (hfree : r.given.exploration.keyword = none) :
    r.argument .explore text = .ok { given :=
      { r.given with exploration := r.given.exploration.withKeyword text } } := by
  have hpositional : r.positional .explore false text = .ok { given :=
      { r.given with exploration := r.given.exploration.withKeyword text } } := by
    rw [positional, hfree, settle_of_nothing hpending]
    rfl
  unfold argument
  split
  case h_1 name htext => exact absurd (congrArg List.head? htext) hplain
  case h_2 c rest _ htext => exact absurd (congrArg List.head? htext) hplain
  case h_3 =>
    unfold plain
    rw [hpending]
    exact hpositional

/-- Reading an argument whose place is free says one thing more about the search. -/
theorem argument_text {a : Argument} (hplain : a.Plain) (hpending : r.pending = .nothing)
    (hfree : said r.given.exploration a.flag? = none) : r.argument .explore a.text
      = .ok { given := { r.given with exploration := a.addTo r.given.exploration } } := by
  cases a with
  | option flag value => exact argument_option hpending hfree value
  | words text => exact argument_words hplain hpending hfree

end Reading

/-- Arguments for different places that are all free are read one after another, in the order in
which they stand. -/
theorem readLevel_text {arguments : List Argument} {r : Reading} (hpending : r.pending = .nothing)
    (hplain : ∀ a ∈ arguments, a.Plain) (honce : (arguments.map Argument.flag?).Nodup)
    (hfree : ∀ a ∈ arguments, said r.given.exploration a.flag? = none) :
    readLevel .explore r (arguments.map Argument.text) = .ok { given :=
      { r.given with exploration := arguments.foldl Argument.addTo r.given.exploration } } := by
  induction arguments generalizing r with
  | nil =>
    obtain ⟨given, pending⟩ := r
    obtain rfl : pending = .nothing := hpending
    rfl
  | cons a rest ih =>
    rw [List.map_cons, List.nodup_cons] at honce
    have ha := hplain a List.mem_cons_self
    -- The places of the rest are still free, since none of them is the place of the argument.
    have hrest : ∀ b ∈ rest, said (a.addTo r.given.exploration) b.flag? = none := by
      intro b hb
      have hne : a.flag? ≠ b.flag? := fun h => honce.1 (h ▸ List.mem_map_of_mem hb)
      have hread := places.read_write r.given.exploration a b.flag?
      rw [if_neg (show places.place a ≠ b.flag? from hne)] at hread
      exact hread.trans (hfree b (List.mem_cons_of_mem _ hb))
    rw [List.map_cons, readLevel, beq_false_of_ne (Argument.text_ne_end ha),
      if_neg Bool.false_ne_true,
      Reading.argument_text ha hpending (hfree a List.mem_cons_self)]
    exact ih rfl (fun b hb => hplain b (List.mem_cons_of_mem _ hb)) honce.2 hrest

/-! ## The request -/

namespace Argument

/-- The exploration of some arguments, in the order in which they stand. -/
def exploration (arguments : List Argument) : Exploration := arguments.foldl addTo {}

variable {arguments others : List Argument}

/-- Where no option stands twice, each place holds what the one argument for it says. -/
theorem said_exploration (honce : (arguments.map flag?).Nodup) (place : Option Flag)
    (text : String) : said (exploration arguments) place = some text ↔
      ∃ a ∈ arguments, a.flag? = place ∧ a.value = text := by
  have hempty : places.read {} place = none := said_empty place
  have hrun : said (exploration arguments) place = lastAt flag? value arguments place := by
    have hread := places.read_run {} arguments place
    rwa [hempty, Option.or_none] at hread
  rw [hrun, lastAt_of_nodup honce]

theorem exploration_eq_of_perm (honce : (arguments.map flag?).Nodup) (h : others.Perm arguments) :
    exploration others = exploration arguments := by
  have hothers : (others.map flag?).Nodup := (h.map flag?).nodup_iff.mpr honce
  have hsaid : ∀ place, said (exploration others) place = said (exploration arguments) place := by
    intro place
    apply Option.ext
    intro text
    rw [said_exploration hothers, said_exploration honce]
    simp only [h.mem_iff]
  exact Exploration.eq_of_values (hsaid none) fun flag => hsaid (some flag)

theorem says_words_iff {a : Argument} {text : String} :
    a.flag? = none ∧ a.value = text ↔ a = words text := by
  cases a with
  | option flag value => simp [flag?]
  | words other => simp [flag?, value]

theorem says_option_iff {a : Argument} {flag : Flag} {value : String} :
    a.flag? = some flag ∧ a.value = value ↔ a = option flag value := by
  cases a with
  | option other text => simp [flag?, Argument.value]
  | words text => simp [flag?]

theorem holds_request (honce : (arguments.map flag?).Nodup) :
    Holds (exploration arguments).request arguments where
  words text := by
    rw [Exploration.keyword_request]
    refine (said_exploration honce none text).trans ?_
    simp only [says_words_iff, exists_eq_right]
  options flag value := by
    rw [Exploration.said_request_flag]
    refine (said_exploration honce (some flag) value).trans ?_
    simp only [says_option_iff, exists_eq_right]
  others label hlabel := Exploration.get?_request_other hlabel _

end Argument

/-! ## The command line -/

/-- What comes of a command line that asks for a search and gives no other option. The environment
may name a settings file, and with an empty name no command line is accepted. -/
def exploring (env : Environment) (exploration : Exploration) : Except Stop Invocation :=
  if env "SHOPGRAPH_CONFIG" = some "" then .error .wrongValue
  else .ok
    { command := .explore exploration
      logLevel := none
      verbose := false
      config := env "SHOPGRAPH_CONFIG"
      defaultPageSize := none
      maxPageSize := none
      format := .json }

theorem parse_explore {arguments : List Argument} (honce : (arguments.map Argument.flag?).Nodup)
    (hplain : ∀ a ∈ arguments, a.Plain) (env : Environment) :
    parse env ("explore" :: arguments.map Argument.text)
      = exploring env (Argument.exploration arguments) := by
  have hprogram : ∀ rest, readProgram {} ("explore" :: rest) = .ok ({}, some (.explore, rest)) :=
    fun _ => rfl
  have hread : readLevel .explore {} (arguments.map Argument.text)
      = .ok { given := { exploration := Argument.exploration arguments } } :=
    readLevel_text rfl hplain honce fun a _ => said_empty a.flag?
  unfold parse
  rw [hprogram]
  dsimp only [bind, Except.bind]
  rw [hread]
  dsimp only [Reading.finish, Reading.settle, bind, Except.bind]
  by_cases hempty : env "SHOPGRAPH_CONFIG" = some ""
  · simp [configVariable, exploring, hempty]
  · simp [configVariable, exploring, hempty, Given.command, invocation, pure, Except.pure]

/-! ## The law -/

/-- Options with their values behind a sign, each once, and words that do not begin like an option
make one exploration, whose request holds the values as they stand and nothing else. Every order
of the arguments is accepted, unless the environment has an empty name for the settings file, and
asks for exactly this exploration; so the search prints the same query on the same pages, and the
whole program ends in the same way. -/
theorem arguments_in_any_order_make_one_request {arguments : List Argument}
    (honce : (arguments.map Argument.flag?).Nodup) (hplain : ∀ a ∈ arguments, a.Plain) :
    ∃ exploration : Exploration, Holds exploration.request arguments
      ∧ (∀ (env : Environment) (others : List Argument), others.Perm arguments →
        parse env ("explore" :: others.map Argument.text) = exploring env exploration)
      ∧ (∀ settings format, (Command.explore exploration).run settings format
        = .ok ((Schema.retail.explore settings.paging exploration.request).render.print format))
      ∧ ∀ (host : Host) (others : List Argument), others.Perm arguments →
        run host ("explore" :: others.map Argument.text)
          = run host ("explore" :: arguments.map Argument.text) := by
  have hparse : ∀ (env : Environment) (others : List Argument), others.Perm arguments →
      parse env ("explore" :: others.map Argument.text)
        = exploring env (Argument.exploration arguments) := by
    intro env others h
    have hothers : (others.map Argument.flag?).Nodup := (h.map _).nodup_iff.mpr honce
    rw [← Argument.exploration_eq_of_perm honce h]
    exact parse_explore hothers (fun a ha => hplain a (h.mem_iff.mp ha)) env
  refine ⟨Argument.exploration arguments, Argument.holds_request honce, hparse, fun _ _ => rfl, ?_⟩
  intro host others h
  unfold run
  rw [hparse host.env others h, hparse host.env arguments (List.Perm.refl _)]

/-- Values may look like options and may be empty, and the words may stand between the options. -/
theorem a_value_may_look_like_an_option :
    let arguments : List Argument :=
      [.option .limit "-3", .words "lamp", .option .order "--cancel=x", .option .returned ""]
    (arguments.map Argument.flag?).Nodup
      ∧ (∀ a ∈ arguments, a.Plain)
      ∧ ∃ exploration : Exploration, Holds exploration.request arguments
        ∧ parse (fun _ => none)
            ["explore", "--return=", "--order=--cancel=x", "lamp", "--limit=-3"]
          = .ok
            { command := .explore exploration
              logLevel := none
              verbose := false
              config := none
              defaultPageSize := none
              maxPageSize := none
              format := .json } := by
  intro arguments
  have honce : (arguments.map Argument.flag?).Nodup := by decide
  have hplain : ∀ a ∈ arguments, a.Plain := by decide
  have htexts : arguments.reverse.map Argument.text
      = ["--return=", "--order=--cancel=x", "lamp", "--limit=-3"] := by decide
  obtain ⟨exploration, hholds, hparse, _, _⟩ := arguments_in_any_order_make_one_request honce hplain
  have hreversed := hparse (fun _ => none) arguments.reverse (List.reverse_perm _)
  rw [htexts] at hreversed
  exact ⟨honce, hplain, exploration, hholds, hreversed⟩

end CommandLine

end ShopQuery
