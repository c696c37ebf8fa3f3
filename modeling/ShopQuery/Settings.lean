-- The settings of the program: page sizes and the graph database to connect to. A file may
-- set any of them, the environment overrides the file, and page sizes below one are refused.
import ShopQuery.Files
import ShopQuery.Search.Paging

namespace ShopQuery

/-! ## Settings -/

/-- How to reach the graph database. -/
structure Connection where
  url : String := "neo4j://localhost:7687"
  username : String := "neo4j"
  password : String := ""
  deriving DecidableEq, Repr

structure Settings where
  paging : Paging := {}
  connection : Connection := {}
  deriving DecidableEq, Repr

/-- The variables of an environment that are set. -/
abbrev Environment := String → Option String

/-! ## Faults -/

/-- Why settings cannot be used. -/
inductive SettingsFault
  | unreadable (path : String) (cause : ReadFault)
  /-- The file is no settings file, for a reason that its reader gives. -/
  | malformed (path reason : String)
  /-- A page size is below one. -/
  | belowOne (name : String)
  deriving DecidableEq, Repr

def SettingsFault.message : SettingsFault → String
  | unreadable path cause => "Failed to read config file " ++ path ++ ": " ++ cause.message
  | malformed path _ => "Failed to parse config file " ++ path
  | belowOne name => "Invalid configuration value for '" ++ name ++ "': must be at least 1"

namespace Settings

/-- The settings themselves if no page size is below one. The maximum is looked at first. -/
def checked (s : Settings) : Except SettingsFault Settings :=
  if s.paging.maxSize < 1 then .error (.belowOne "paging.max_page_size")
  else if s.paging.defaultSize < 1 then .error (.belowOne "paging.default_page_size")
  else .ok s

/-! ## Overrides -/

/-- A page size that a variable gives. One that is no number of 32 bits counts as not set. -/
def pageSizeFrom? (env : Environment) (name : String) : Option UInt32 :=
  ((env name).map Text.trim).bind Text.unsigned32?

/-- The settings with what the environment sets in place. -/
def withEnvironment (s : Settings) (env : Environment) : Settings :=
  { paging :=
      { defaultSize := (pageSizeFrom? env "SHOPGRAPH_DEFAULT_PAGE_SIZE").getD s.paging.defaultSize
        maxSize := (pageSizeFrom? env "SHOPGRAPH_MAX_PAGE_SIZE").getD s.paging.maxSize }
    connection :=
      { url := (env "NEO4J_URL").getD s.connection.url
        username := (env "NEO4J_USERNAME").getD s.connection.username
        password := (env "NEO4J_PASSWORD").getD s.connection.password } }

/-- The settings with page sizes from the command line in place. -/
def withPageSizes (s : Settings) (defaultSize maxSize : Option UInt32) : Settings :=
  { s with
    paging :=
      { defaultSize := defaultSize.getD s.paging.defaultSize
        maxSize := maxSize.getD s.paging.maxSize } }

end Settings

end ShopQuery
