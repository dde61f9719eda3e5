import BasicFrontEnd.Token

/-!
The types that declarations name: a base type, the record's name where the base is a record, and a number of
array dimensions.
-/

namespace BasicFrontEnd

inductive BaseType
  | integer
  | float
  | string
  | boolean
  | void
  | nil
  | record
  | unknown
  deriving DecidableEq, Inhabited

namespace BaseType

def all : List BaseType :=
  [integer, float, string, boolean, void, nil, record, unknown]

def name : BaseType → String
  | integer   => "INTEGER"
  | float     => "FLOAT"
  | string    => "STRING"
  | boolean   => "BOOLEAN"
  | void      => "VOID"
  | nil       => "NIL"
  | record    => "STRUCT"
  | unknown   => "UNKNOWN"

def ofName? (name : String) : Option BaseType :=
  all.find? (·.name == name)

-- The type that a token of the kind names. An identifier names a record.
def ofKind : Kind → BaseType
  | .keyword .intWord    => integer
  | .keyword .floatWord  => float
  | .keyword .stringWord => string
  | .keyword .boolWord   => boolean
  | .keyword .voidWord   => void
  | .keyword .nilWord    => nil
  | .identifier          => record
  | _                    => unknown

end BaseType

@[ext]
structure TypeSpec where
  base       : BaseType
  recordName : Option String := none
  dimensions : Nat := 0
  deriving DecidableEq, Inhabited

namespace TypeSpec

def ofRecord (name : String) : TypeSpec :=
  ⟨.record, some name, 0⟩

def isRecord (t : TypeSpec) : Bool :=
  t.base == .record

def isArray (t : TypeSpec) : Bool :=
  1 ≤ t.dimensions

-- Whether a function of this type returns nothing.
def isVoid (t : TypeSpec) : Bool :=
  t.base == .void && !t.isArray

/-- The type as it is written: the name of the record or of the base, and brackets for each dimension. -/
def write (t : TypeSpec) : String :=
  t.recordName.getD t.base.name ++ String.join (List.replicate t.dimensions "[]")

end TypeSpec
end BasicFrontEnd
