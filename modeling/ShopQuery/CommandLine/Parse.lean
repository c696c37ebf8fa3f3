-- The whole command line: options that go for every command, one command, and its arguments.
import ShopQuery.CommandLine.Reading

namespace ShopQuery.CommandLine

/-- The invocation of a command. What stands behind the command comes before what stands in
front of it, and either comes before the environment. -/
def invocation (command : Command) (outer inner : Given) (fromEnvironment : Option String) :
    Invocation :=
  { command
    logLevel := inner.logLevel.or outer.logLevel
    verbose := outer.verbose || inner.verbose
    config := (inner.config.or outer.config).or fromEnvironment
    defaultPageSize := inner.defaultPageSize.or outer.defaultPageSize
    maxPageSize := inner.maxPageSize.or outer.maxPageSize
    format := (inner.format.or outer.format).getD .json }

/-- The variable that names a settings file. -/
def configVariable : String := "SHOPGRAPH_CONFIG"

/-- The invocation that a command line asks for in an environment. -/
def parse (env : Environment) (args : List String) : Except Stop Invocation := do
  let fromEnvironment := env configVariable
  match ← readProgram {} args with
  | (outer, none) =>
    let given ← outer.finish fromEnvironment
    .error (if given == {} && fromEnvironment.isNone then .nothing else .missingCommand)
  | (outer, some (level, rest)) =>
    let inner ← (← readLevel level {} rest).finish fromEnvironment
    let command ← inner.command level
    let outer ← outer.finish fromEnvironment
    return invocation command outer inner fromEnvironment

end ShopQuery.CommandLine
