-- What the program prints: queries and connections, as JSON or as plain text.
import ShopQuery.Json.Printer
import ShopQuery.Query.Cypher
import ShopQuery.Settings

namespace ShopQuery

/-- How results are printed. -/
inductive Format
  | json
  | text
  deriving DecidableEq, Repr

/-- A query is printed as an object, or as its text without the line feeds at the end. -/
def Query.print (q : Query) : Format → String
  | .json => Json.printObject [("cypher", q.cypher)]
  | .text => Text.dropFinalNewlines q.cypher

/-- As plain text a connection does not show its password, only that there is one. -/
def Connection.print (c : Connection) : Format → String
  | .json =>
    Json.printObject [("url", c.url), ("username", c.username), ("password", c.password)]
  | .text =>
    "url: " ++ c.url ++ "\nusername: " ++ c.username ++ "\npassword: "
      ++ (if c.password.isEmpty then "" else "********")

end ShopQuery
