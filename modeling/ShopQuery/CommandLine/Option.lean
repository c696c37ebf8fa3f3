-- The options of a command line: their names at each level, and how their values read.
import ShopQuery.CommandLine.Invocation

namespace ShopQuery.CommandLine

/-! ## Values -/

/-- The two parts of a text on either side of its first `=`. -/
def splitAtEquals? : List Char → Option (List Char × List Char)
  | [] => none
  | c :: rest =>
    if c == '=' then some ([], rest) else (splitAtEquals? rest).map fun p => (c :: p.1, p.2)

/-- A parameter: a name that is not empty and a value, with `=` between them. -/
def parameter? (s : String) : Option (String × String) :=
  match splitAtEquals? s.toList with
  | some (c :: name, value) => some (String.ofList (c :: name), String.ofList value)
  | _ => none

/-- What is said of a text that is no parameter. -/
def parameterMessage (s : String) : String := "expected KEY=VALUE, got '" ++ s ++ "'"

/-- A page size as an option takes it: unlike elsewhere, a minus sign before a zero is fine. -/
def pageSize? (s : String) : Option UInt32 := (Text.signed64? s).bind Text.word32?

def format? (s : String) : Option Format :=
  if s == "json" then some .json else if s == "text" then some .text else none

def logLevel? (s : String) : Option LogLevel := LogLevel.all.find? (·.name == s)

/-! ## Levels -/

/-- What is being read: the line before its command, or the line after one. -/
inductive Level
  | program
  | explore
  | inspect
  | connection
  deriving DecidableEq, Repr

/-- The level that the name of a command opens. -/
def Level.ofName? (name : String) : Option Level :=
  [("explore", explore), ("inspect", inspect), ("connection", connection)].lookup name

/-! ## Options -/

/-- An option with a value. -/
inductive Setting
  | logLevel
  | config
  | defaultPageSize
  | maxPageSize
  | format
  | exploring (flag : Flag)
  | param
  deriving DecidableEq, Repr

/-- What an option stands for. -/
inductive Switch
  | help
  | version
  | verbose
  | setting (s : Setting)
  deriving DecidableEq, Repr

/-- The options that every level knows, by their long names. -/
def commonLong : List (String × Switch) :=
  [ ("log-level", .setting .logLevel), ("verbose", .verbose), ("config", .setting .config),
    ("default-page-size", .setting .defaultPageSize), ("max-page-size", .setting .maxPageSize),
    ("format", .setting .format), ("help", .help) ]

/-- The options that every level knows, by their letters. -/
def commonShort : List (Char × Switch) :=
  [ ('l', .setting .logLevel), ('v', .verbose), ('C', .setting .config),
    ('f', .setting .format), ('h', .help) ]

namespace Level

/-- The options of a level alone, by their long names. -/
def ownLong : Level → List (String × Switch)
  | program => [("version", .version)]
  | explore => Flag.all.map fun flag => (flag.name, .setting (.exploring flag))
  | inspect => [("param", .setting .param)]
  | connection => []

/-- The options of a level alone, by their letters. -/
def ownShort : Level → List (Char × Switch)
  | program => [('V', .version)]
  | inspect => [('p', .setting .param)]
  | explore | connection => []

def long? (level : Level) (name : String) : Option Switch :=
  (commonLong ++ level.ownLong).lookup name

def short? (level : Level) (letter : Char) : Option Switch :=
  (commonShort ++ level.ownShort).lookup letter

end Level

end ShopQuery.CommandLine
