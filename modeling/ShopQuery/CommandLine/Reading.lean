-- Reading the arguments of one level. An option with a value of its own argument is put in
-- its place only when the reading goes on past it, so a fault further on may come first.
import ShopQuery.CommandLine.Given

namespace ShopQuery.CommandLine

/-! ## State -/

/-- An option that has been read and not been put in its place. -/
inductive Pending
  | nothing
  /-- The value has not come yet. -/
  | awaiting (s : Setting)
  | holding (s : Setting) (value : String)
  deriving DecidableEq, Repr

/-- How far one level has been read. -/
structure Reading where
  given : Given := {}
  pending : Pending := .nothing
  deriving DecidableEq

namespace Reading

variable (r : Reading)

/-- A value is awaited. -/
def awaits : Bool :=
  match r.pending with
  | .awaiting _ => true
  | _ => false

/-- What has been given once the pending option is in its place. -/
def settle : Except Stop Given :=
  match r.pending with
  | .nothing => .ok r.given
  | .awaiting _ => .error .wrongValue
  | .holding s value => r.given.store s value

/-! ## Options -/

/-- An option without a value in the same argument. -/
def act (switch : Switch) : Except Stop Reading := do
  let given ← r.settle
  match switch with
  | .help => .error .help
  | .version => .error .version
  | .verbose =>
    if given.verbose then .error .repeatedOption
    else return { given := { given with verbose := true } }
  | .setting s => return { given, pending := .awaiting s }

/-- An option whose value stands in the same argument. -/
def assign (s : Setting) (value : String) : Except Stop Reading := do
  let given ← r.settle
  return { given := ← given.store s value }

/-- An option by its long name, perhaps with a value. -/
def long (level : Level) (name : String) (value : Option String) : Except Stop Reading :=
  match level.long? name, value with
  | none, _ => .error .unknownArgument
  | some (.setting s), some value => r.assign s value
  | some _, some _ => .error .surplusValue
  | some switch, none => r.act switch

/-- Options by their letters. What stands behind an option with a value is its value; a sign
`=` between the two is left out. -/
def letters (r : Reading) (level : Level) : List Char → Except Stop Reading
  | [] => .ok r
  | c :: rest =>
    match level.short? c with
    | none => .error .unknownArgument
    | some (.setting s) =>
      match rest with
      | [] => r.act (.setting s)
      | '=' :: value => r.assign s (String.ofList value)
      | value => r.assign s (String.ofList value)
    | some switch => do letters (← r.act switch) level rest

/-! ## Arguments -/

/-- A text that is no option and no value of one. -/
def positional (level : Level) (trailing : Bool) (text : String) : Except Stop Reading :=
  match level with
  | .explore =>
    if r.given.exploration.keyword.isSome then .error .unknownArgument
    else do
      let given ← r.settle
      return { given := { given with exploration := given.exploration.withKeyword text } }
  | .inspect =>
    if r.given.label.isSome then .error .unknownArgument
    else do
      let given ← r.settle
      return { given := { given with label := some text } }
  | .connection => .error .unknownArgument
  | .program =>
    if trailing && (text == "help" || (Level.ofName? text).isSome) then .error .unknownArgument
    else .error .unknownCommand

/-- A text that is no option: the value that is awaited, or a text of its own. -/
def plain (level : Level) (text : String) : Except Stop Reading :=
  match r.pending with
  | .awaiting s => .ok { r with pending := .holding s text }
  | _ => r.positional level false text

/-- One argument that does not stand behind `--`. -/
def argument (level : Level) (text : String) : Except Stop Reading :=
  match text.toList with
  | '-' :: '-' :: name =>
    match splitAtEquals? name with
    | some (name, value) => r.long level (String.ofList name) (some (String.ofList value))
    | none => r.long level (String.ofList name) none
  | '-' :: c :: rest => r.letters level (c :: rest)
  | _ => r.plain level text

/-- What has been given at the end of a level. The environment may name a settings file; the
name may not be empty, unless an option of this level is there to replace it. -/
def finish (fromEnvironment : Option String) : Except Stop Given := do
  let given ← r.settle
  if given.config.isNone && fromEnvironment == some "" then .error .wrongValue else .ok given

end Reading

/-! ## Levels -/

/-- Read texts behind `--`. -/
def readTrailing (level : Level) : Reading → List String → Except Stop Reading
  | r, [] => .ok r
  | r, text :: rest => do readTrailing level (← r.positional level true text) rest

/-- Read the arguments behind a command. -/
def readLevel (level : Level) : Reading → List String → Except Stop Reading
  | r, [] => .ok r
  | r, text :: rest => do
    if text == "--" then readTrailing level r rest
    else readLevel level (← r.argument level text) rest

/-- What comes of asking for help, about the program or about one command. -/
def helpFor : List String → Stop
  | [] => .help
  | [name] => if name == "help" || (Level.ofName? name).isSome then .help else .unknownCommand
  | _ => .unknownCommand

/-- Read the arguments up to the command. If there is one, give its level and what stands
behind it. -/
def readProgram : Reading → List String → Except Stop (Reading × Option (Level × List String))
  | r, [] => .ok (r, none)
  | r, text :: rest =>
    if !r.awaits && text == "help" then .error (helpFor rest)
    else
      match if r.awaits then none else Level.ofName? text with
      | some level => .ok (r, some (level, rest))
      | none => do
        if text == "--" then return (← readTrailing .program r rest, none)
        else readProgram (← r.argument .program text) rest

end ShopQuery.CommandLine
