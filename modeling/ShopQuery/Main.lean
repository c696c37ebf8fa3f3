-- The program on the machine: it looks up the variables and the settings file that the pure
-- program asks about, and prints what it gives.
import ShopQuery.Program

namespace ShopQuery

/-- What the machine says when a file cannot be read. -/
def ReadFault.ofError : IO.Error → ReadFault
  | .noFileOrDirectory .. => .missing
  | .inappropriateType _ code _ => if code == 21 then .isDirectory else .notDirectory
  | e => .other (toString e)

/-- The variables that the program knows. -/
def knownVariables : List String :=
  [ CommandLine.configVariable, "SHOPGRAPH_DEFAULT_PAGE_SIZE", "SHOPGRAPH_MAX_PAGE_SIZE",
    "NEO4J_URL", "NEO4J_USERNAME", "NEO4J_PASSWORD" ]

/-- The known variables that are set. -/
def environment : IO Environment := do
  let pairs ← knownVariables.mapM fun name => do return (name, ← IO.getEnv name)
  return fun name => (pairs.lookup name).join

/-- What is found in the settings file of a command line. -/
def settingsFile (env : Environment) (args : List String) : IO (Except ReadFault ByteArray) := do
  match (CommandLine.parse env args).toOption.bind Invocation.config with
  | none => return .error .missing
  | some path =>
    try return .ok (← IO.FS.readBinFile path)
    catch e => return .error (.ofError e)

/-- What surrounds the program on the machine. The readers of command lines and of documents have
no words here, so the name of a stop stands for a notice. -/
def host (env : Environment) (file : Except ReadFault ByteArray) : Host where
  env
  file _ := file
  refusal _ := "no settings"
  notice stop := reprStr stop ++ "\n"

end ShopQuery

def main (args : List String) : IO UInt32 := do
  let env ← ShopQuery.environment
  let file ← ShopQuery.settingsFile env args
  let exit := (ShopQuery.run (ShopQuery.host env file) args).exit
  IO.print exit.stdout
  IO.eprint exit.stderr
  return exit.code
