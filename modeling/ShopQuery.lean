import ShopQuery.Json.Decode
import ShopQuery.Main
import ShopQuery.Proofs.BodyRecord
import ShopQuery.Proofs.RequestMeaning
import ShopQuery.Proofs.SearchBody
import ShopQuery.Proofs.QueryLines
import ShopQuery.Proofs.TextIdentity
import ShopQuery.Proofs.QuoteReading
import ShopQuery.Proofs.Scopes
import ShopQuery.Proofs.Growth
import ShopQuery.Proofs.Numerals
import ShopQuery.Proofs.Tables
import ShopQuery.Proofs.Neighbourhood
import ShopQuery.Proofs.InspectionText
import ShopQuery.Proofs.Precedence
import ShopQuery.Proofs.OrderCounting
import ShopQuery.Proofs.FirstFault
import ShopQuery.Proofs.Clashes
import ShopQuery.Proofs.NormalSearch
import ShopQuery.Proofs.LimitLine
import ShopQuery.Proofs.PageSizes
import ShopQuery.Proofs.FiniteNumbers
import ShopQuery.Proofs.ReturnOrder
import ShopQuery.Proofs.TableOrder
import ShopQuery.Proofs.Additions
import ShopQuery.Proofs.LastWrite
import ShopQuery.Proofs.RequestParts
import ShopQuery.Proofs.Parameters
import ShopQuery.Proofs.ExploreArguments
import ShopQuery.Proofs.JsonSpelling
import ShopQuery.Proofs.PlanLines
import ShopQuery.Proofs.QueryOutput
import ShopQuery.Proofs.JsonValues
import ShopQuery.Proofs.RequestText
import ShopQuery.Proofs.PartialFiles
