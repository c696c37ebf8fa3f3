-- The shape of a shop graph: which relationships there are, what brings each of them into a
-- search, and which property identifies the nodes of a label. A schema is made from two
-- tables, and only tables without clashes and gaps make one.
import ShopQuery.Label.Set

namespace ShopQuery

/-! ## Relationships -/

/-- What brings a relationship into a search. -/
inductive Trigger
  /-- The label was asked for. -/
  | one (label : Label)
  /-- Both labels were asked for: the child counts only under its parent. -/
  | under (parent child : Label)
  deriving DecidableEq, Repr

/-- The labels that were asked for bring the relationship in. -/
def Trigger.fires : Trigger → LabelSet → Bool
  | one label, asked => asked.contains label
  | under parent child, asked => asked.contains parent && asked.contains child

/-- A kind of relationship between the nodes of two labels. -/
structure Relationship where
  name : String
  /-- The variable that stands for the relationship. -/
  var : String
  source : Label
  target : Label
  trigger : Trigger
  /-- The relationship is made from the request and never stored. -/
  isVirtual : Bool
  deriving DecidableEq, Repr

/-- The label is an end of the relationship. -/
def Relationship.hasEnd (r : Relationship) (l : Label) : Bool := r.source == l || r.target == l

/-! ## Faults -/

/-- Why two tables make no schema. -/
inductive SchemaFault
  | missingKey (label : Label)
  | repeatedKey (label : Label)
  | keyOfVirtual (label : Label)
  | repeatedName (name : String)
  | repeatedVar (var : String)
  deriving DecidableEq, Repr

def SchemaFault.message : SchemaFault → String
  | missingKey label => "No primary key declared for label " ++ label.name
  | repeatedKey label => "Primary key declared more than once for label " ++ label.name
  | keyOfVirtual label => "Virtual label " ++ label.name ++ " cannot have a primary key"
  | repeatedName name => "Relationship " ++ name ++ " declared more than once"
  | repeatedVar var => "Relationship alias " ++ var ++ " used more than once"

/-! ## Schemas -/

/-- The relationships of a graph, and for each stored label the property that identifies its
nodes. -/
structure Schema where
  relationships : List Relationship
  keys : List (Label × String)
  deriving DecidableEq, Repr

namespace Schema

/-- The first relationship whose name or variable stands earlier in the table. -/
def relationshipFault? : List Relationship → List Relationship → Option SchemaFault
  | _, [] => none
  | earlier, r :: rest =>
    if earlier.any (·.name == r.name) then some (.repeatedName r.name)
    else if earlier.any (·.var == r.var) then some (.repeatedVar r.var)
    else relationshipFault? (r :: earlier) rest

/-- The first key of a virtual label, or of a label that stands earlier in the table. -/
def keyFault? : List Label → List (Label × String) → Option SchemaFault
  | _, [] => none
  | earlier, (l, _) :: rest =>
    if l.isVirtual then some (.keyOfVirtual l)
    else if earlier.contains l then some (.repeatedKey l)
    else keyFault? (l :: earlier) rest

/-- The first stored label without a key. -/
def gap? (keys : List (Label × String)) : Option SchemaFault :=
  (Label.all.find? fun l => !l.isVirtual && (keys.lookup l).isNone).map .missingKey

/-- The first fault of two tables. One among the relationships comes before one among the
keys, and a gap comes last. -/
def fault? (relationships : List Relationship) (keys : List (Label × String)) :
    Option SchemaFault :=
  (relationshipFault? [] relationships).or ((keyFault? [] keys).or (gap? keys))

/-- A schema from its two tables. -/
def ofTables (relationships : List Relationship) (keys : List (Label × String)) :
    Except SchemaFault Schema :=
  match fault? relationships keys with
  | some fault => .error fault
  | none => .ok ⟨relationships, keys⟩

/-! ## Questions -/

variable (s : Schema)

def relationship? (name : String) : Option Relationship := s.relationships.find? (·.name == name)

/-- The property that identifies the nodes of a label. -/
def key? (l : Label) : Option String := s.keys.lookup l

/-- The stored label that a text spells, whatever the case of its letters, and its key. -/
def keyed? (spelling : String) : Option (Label × String) :=
  (Label.ofSpelling? spelling).bind fun l => (s.key? l).map fun k => (l, k)

/-- The stored relationships with an end at the label, in the order of the table. -/
def neighbours (l : Label) : List Relationship :=
  s.relationships.filter fun r => !r.isVirtual && r.hasEnd l

/-- The relationships with an end at the label, virtual ones too, in the order of the table. -/
def relationshipsAt (l : Label) : List Relationship := s.relationships.filter (·.hasEnd l)

/-- The relationships that the labels asked for bring in, in the order of the table. -/
def triggered (asked : LabelSet) : List Relationship :=
  s.relationships.filter (·.trigger.fires asked)

end Schema

end ShopQuery
