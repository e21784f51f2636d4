import LoraDb.Mutation

/-!
# Query Values

What a row of a query holds: a property value, or a node, a relationship or a path of the
graph. A row binds variables to values; which slot of the row a variable sits in is left out.
-/

namespace LoraDb

/-- A materialised path, its nodes and relationships in turn: one node more than
relationships. -/
structure LoraPath where
  nodes : List NodeId
  rels : List RelationshipId
deriving DecidableEq

/-- A query value. -/
inductive LoraValue where
  | null
  | bool (value : Bool)
  | int (value : Int64)
  | float (value : F64)
  | string (value : String)
  | binary (value : LoraBinary)
  | list (values : List LoraValue)
  | map (entries : List (String × LoraValue))
  | node (id : NodeId)
  | relationship (id : RelationshipId)
  | path (value : LoraPath)
  | date (value : LoraDate)
  | time (value : LoraTime)
  | localTime (value : LoraLocalTime)
  | dateTime (value : LoraDateTime)
  | localDateTime (value : LoraLocalDateTime)
  | duration (value : LoraDuration)
  | point (value : LoraPoint)
  | vector (value : LoraVector)
deriving Inhabited

/-- Null is not truthy; of the others only `false` is not. -/
def LoraValue.isTruthy : LoraValue → Bool
  | .null => false
  | .bool value => value
  | _ => true

/-- A variable of a query. -/
structure VarId where
  index : ℕ
deriving DecidableEq

/-- A row: the value of each variable it binds. -/
abbrev Row := VarId → Option LoraValue

namespace Row

/-- The row that binds nothing. -/
def empty : Row := fun _ => none

/-- Bind a variable, whatever it was bound to. -/
def insert (row : Row) (var : VarId) (value : LoraValue) : Row :=
  Function.update row var (some value)

@[simp] theorem insert_self (row : Row) (var : VarId) (value : LoraValue) :
    row.insert var value var = some value := by
  simp [insert]

theorem insert_of_ne (row : Row) {var var' : VarId} (value : LoraValue) (h : var' ≠ var) :
    row.insert var value var' = row var' := by
  simp [insert, h]

end Row

end LoraDb
