-- The commands of the program, and what each of them gives.
import ShopQuery.Format
import ShopQuery.Inspection.Plan
import ShopQuery.Search.Exploration
import ShopQuery.Search.Plan

namespace ShopQuery

inductive Command
  | explore (exploration : Exploration)
  /-- The parameters in the order in which they were given. -/
  | inspect (label : String) (params : List (String × String))
  | connection
  deriving DecidableEq

/-- Why a command gives nothing. -/
inductive CommandFault
  | inspecting (label : String) (cause : InspectionFault)
  deriving DecidableEq, Repr

def CommandFault.message : CommandFault → String
  | inspecting label _ => "Cannot inspect '" ++ label ++ "'"

def CommandFault.cause : CommandFault → InspectionFault
  | inspecting _ cause => cause

/-- What a command prints. -/
def Command.run (settings : Settings) (format : Format) : Command → Except CommandFault String
  | explore exploration =>
    .ok ((Schema.retail.explore settings.paging exploration.request).render.print format)
  | inspect label params =>
    match Schema.retail.inspect label (.ofList params) with
    | .ok plan => .ok (plan.render.print format)
    | .error cause => .error (.inspecting label cause)
  | connection => .ok (settings.connection.print format)

end ShopQuery
