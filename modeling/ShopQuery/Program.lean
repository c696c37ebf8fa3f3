-- The whole program: from a command line and what surrounds it to what is printed.
import ShopQuery.CommandLine.Parse
import ShopQuery.Settings.File

namespace ShopQuery

/-! ## Failures -/

/-- Why the command of an invocation was not run, or gave nothing. -/
inductive Failure
  | loading (fault : SettingsFault)
  | overriding (fault : SettingsFault)
  | command (fault : CommandFault)
  deriving DecidableEq, Repr

/-- The fault and what lies behind it. -/
def SettingsFault.chain : SettingsFault → List String
  | unreadable path cause => [(unreadable path cause).message, cause.message]
  | malformed path reason => [(malformed path reason).message, reason]
  | belowOne name => [(belowOne name).message]

namespace Failure

def message : Failure → String
  | loading _ => "Failed to load configuration"
  | overriding _ => "Invalid command-line overrides"
  | command fault => fault.message

/-- What lies behind the failure, from the nearest to the farthest. -/
def causes : Failure → List String
  | loading fault | overriding fault => fault.chain
  | command fault => [fault.cause.message]

end Failure

/-! ## Reports -/

/-- The characters of a cause behind its first line mark: every further line gets an indent. -/
def indentLines (indent : List Char) (s : String) : String :=
  String.ofList (s.toList.flatMap fun c => if c == '\n' then c :: indent else [c])

/-- A number from zero to nine hundred ninety-nine, right-aligned in five columns. -/
def numberMark (n : Nat) : String :=
  String.ofList (List.replicate (5 - (toString n).length) ' ') ++ toString n ++ ": "

/-- A cause among several, with its number. -/
def numberedCause (n : Nat) (cause : String) : String :=
  "\n" ++ numberMark n ++ indentLines (List.replicate 7 ' ') cause

/-- The causes of a failure: one stands alone, several are numbered. -/
def causeLines : List String → String
  | [] => ""
  | [cause] => "\n\nCaused by:\n    " ++ indentLines (List.replicate 4 ' ') cause
  | causes => "\n\nCaused by:" ++ String.join (causes.mapIdx numberedCause)

/-- The text about a failure. -/
def Failure.report (f : Failure) : String := "Error: " ++ f.message ++ causeLines f.causes

/-! ## Running -/

/-- What surrounds the program. -/
structure Host where
  env : Environment
  /-- What is found when a file is read. -/
  file : String → Except ReadFault ByteArray
  /-- What is said of a file that gives no settings. -/
  refusal : Settings.Refusal
  /-- What is said where a command line gives nothing to run. The words are those of its reader. -/
  notice : Stop → String

/-- How the program ends. -/
inductive Outcome
  | output (text : String)
  | failed (failure : Failure)
  | stopped (stop : Stop) (notice : String)
  deriving DecidableEq, Repr

namespace Invocation

/-- The settings that go for an invocation. -/
def settings (i : Invocation) (host : Host) : Except Failure Settings := do
  let loaded ← (Settings.load host.env host.file host.refusal i.config).mapError .loading
  (loaded.withPageSizes i.defaultPageSize i.maxPageSize).checked.mapError .overriding

/-- What the command of an invocation prints. -/
def run (i : Invocation) (host : Host) : Except Failure String := do
  let settings ← i.settings host
  (i.command.run settings i.format).mapError .command

end Invocation

/-- How the program ends on a command line. -/
def run (host : Host) (args : List String) : Outcome :=
  match CommandLine.parse host.env args with
  | .error stop => .stopped stop (host.notice stop)
  | .ok i =>
    match i.run host with
    | .ok text => .output text
    | .error failure => .failed failure

/-! ## Exits -/

/-- What is seen of a program that has ended. -/
structure Exit where
  code : UInt32
  stdout : String
  stderr : String
  deriving DecidableEq, Repr

def versionText : String := "shopgraph 0.1.0"

/-- What is seen of each way to end. Only output, help and version go to standard output. -/
def Outcome.exit : Outcome → Exit
  | output text => ⟨0, text ++ "\n", ""⟩
  | failed failure => ⟨1, "", failure.report ++ "\n"⟩
  | stopped .help notice => ⟨0, notice, ""⟩
  | stopped .version _ => ⟨0, versionText ++ "\n", ""⟩
  | stopped _ notice => ⟨2, "", notice⟩

end ShopQuery
