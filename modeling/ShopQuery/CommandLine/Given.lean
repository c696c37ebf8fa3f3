-- What the arguments of one level have given so far. An option takes its place once; only
-- parameters add up.
import ShopQuery.CommandLine.Option

namespace ShopQuery.CommandLine

/-- What has been given at one level. -/
structure Given where
  logLevel : Option LogLevel := none
  verbose : Bool := false
  config : Option String := none
  defaultPageSize : Option UInt32 := none
  maxPageSize : Option UInt32 := none
  format : Option Format := none
  /-- The arguments of an exploring command. -/
  exploration : Exploration := {}
  /-- The label of an inspecting command. -/
  label : Option String := none
  /-- The parameters of an inspecting command, in the order in which they were given. -/
  params : List (String × String) := []
  deriving DecidableEq

/-- The value for a place: the place has to be free, and the value has to read. -/
def fill {α β : Type} (place : Option α) (value : Option β) (fault : Stop) : Except Stop β :=
  match place, value with
  | some _, _ => .error .repeatedOption
  | none, none => .error fault
  | none, some v => .ok v

namespace Given

/-- What has been given, with the value of an option in its place. -/
def store (g : Given) (s : Setting) (value : String) : Except Stop Given :=
  match s with
  | .logLevel => do
    let level ← fill g.logLevel (logLevel? value) .wrongValue
    return { g with logLevel := some level }
  | .config => do
    let path ← fill g.config (if value.isEmpty then none else some value) .wrongValue
    return { g with config := some path }
  | .defaultPageSize => do
    let size ← fill g.defaultPageSize (pageSize? value) .unreadableValue
    return { g with defaultPageSize := some size }
  | .maxPageSize => do
    let size ← fill g.maxPageSize (pageSize? value) .unreadableValue
    return { g with maxPageSize := some size }
  | .format => do
    let format ← fill g.format (format? value) .wrongValue
    return { g with format := some format }
  | .exploring flag => do
    let text ← fill (g.exploration.value? flag) (some value) .wrongValue
    return { g with exploration := g.exploration.withValue flag text }
  | .param =>
    match parameter? value with
    | none => .error .unreadableValue
    | some pair => .ok { g with params := g.params ++ [pair] }

/-- The command that a level gives. -/
def command (g : Given) : Level → Except Stop Command
  | .explore => .ok (.explore g.exploration)
  | .inspect =>
    match g.label with
    | none => .error .missingLabel
    | some label => .ok (.inspect label g.params)
  | .connection => .ok .connection
  | .program => .error .missingCommand

end Given

end ShopQuery.CommandLine
