-- What a command line asks for, and why one may ask for nothing that can be done.
import ShopQuery.Command

namespace ShopQuery

/-- How much the program says about its work. -/
inductive LogLevel
  | off
  | error
  | warn
  | info
  | debug
  | trace
  deriving DecidableEq, Repr

namespace LogLevel

def all : List LogLevel := [off, error, warn, info, debug, trace]

def name : LogLevel → String
  | off => "off"
  | error => "error"
  | warn => "warn"
  | info => "info"
  | debug => "debug"
  | trace => "trace"

end LogLevel

/-- A command with the options that go for every command. -/
structure Invocation where
  command : Command
  logLevel : Option LogLevel
  verbose : Bool
  /-- The path of the settings file. -/
  config : Option String
  defaultPageSize : Option UInt32
  maxPageSize : Option UInt32
  format : Format
  deriving DecidableEq

/-- The level that was asked for, or else the one that `verbose` stands for. -/
def Invocation.verbosity (i : Invocation) : LogLevel :=
  i.logLevel.getD (if i.verbose then .debug else .warn)

/-- Why a command line gives no invocation. -/
inductive Stop
  /-- Help was asked for. -/
  | help
  /-- The version was asked for. -/
  | version
  /-- There is nothing on the line. -/
  | nothing
  | missingCommand
  | unknownCommand
  | unknownArgument
  /-- A value is missing, empty or none of those that may be chosen. -/
  | wrongValue
  /-- A value does not read as what it has to be. -/
  | unreadableValue
  /-- A value where none is taken. -/
  | surplusValue
  /-- An option stands twice. -/
  | repeatedOption
  | missingLabel
  deriving DecidableEq, Repr

end ShopQuery
