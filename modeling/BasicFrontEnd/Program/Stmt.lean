import BasicFrontEnd.Program.Expr

/-!
Statements and declarations, each with the place of its first token, and their outlines.
-/

namespace BasicFrontEnd

/-- A name with a type: a member of a record or a formal of a function. -/
@[ext]
structure TypedName where
  name     : String
  type     : TypeSpec
  position : Position
  deriving DecidableEq, Inhabited

inductive Stmt
  | declare (name : String) (type : TypeSpec) (initial : Option Expr) (position : Position)
  | record (name : String) (members : List TypedName) (position : Position)
  | function (name : String) (result : TypeSpec) (formals : List TypedName) (body : List Stmt)
      (bodyPosition position : Position)
  | label (name : String) (position : Position)
  | goto (target : String) (position : Position)
  | returning (value : Expr) (position : Position)
  | branch (test : Expr) (body : Stmt) (otherwise : Option Stmt) (position : Position)
  | loop (test : Expr) (body : Stmt) (position : Position)
  | block (body : List Stmt) (position : Position)
  | expression (value : Expr) (position : Position)

instance : Inhabited Stmt :=
  ⟨.label "" .nowhere⟩

namespace TypedName

-- The lines of an outline that tell a type.
def typeFields (type : TypeSpec) : List Outline :=
  [.field "type" type.base.name] ++
    (type.recordName.map (Outline.field "struct_type")).toList ++
    (if type.isArray then [.field "dimensions" (toString type.dimensions)] else [])

def outline (kind : String) (t : TypedName) : Outline :=
  .node kind (.field "name" t.name :: typeFields t.type)

end TypedName

namespace Stmt

def position : Stmt → Position
  | .declare _ _ _ p     => p
  | .record _ _ p      => p
  | .function _ _ _ _ _ p => p
  | .label _ p            => p
  | .goto _ p             => p
  | .returning _ p           => p
  | .branch _ _ _ p       => p
  | .loop _ _ p          => p
  | .block _ p            => p
  | .expression _ p       => p

def kindName : Stmt → String
  | .declare _ _ _ _     => "VarDecl"
  | .record _ _ _      => "StructDecl"
  | .function _ _ _ _ _ _ => "FuncDecl"
  | .label _ _            => "LabelDecl"
  | .goto _ _             => "GotoStmt"
  | .returning _ _           => "ReturnStmt"
  | .branch _ _ _ _       => "IfStmt"
  | .loop _ _ _          => "WhileStmt"
  | .block _ _            => "BlockStmt"
  | .expression e _       => e.kindName

mutual

def outline : Stmt → Outline
  | .declare name type initial _ =>
    .node "VarDecl" (.field "name" name :: TypedName.typeFields type ++
      (initial.map fun e => .group "init" [e.outline]).toList)
  | .record name members _ =>
    .node "StructDecl" [.field "name" name, .group "members" (members.map (TypedName.outline "MemberDecl"))]
  | .function name result formals body _ _ =>
    .node "FuncDecl" (.field "name" name :: TypedName.typeFields result ++
      [.group "formals" (formals.map (TypedName.outline "Formal")),
       .group "body" [.node "BlockStmt" (outlines body)]])
  | .label name _ => .leaf ("LabelDecl(" ++ name ++ ")")
  | .goto target _ => .leaf ("GotoStmt(" ++ target ++ ")")
  | .returning value _ => .node "ReturnStmt" [value.outline]
  | .branch test body otherwise _ =>
    .node "IfStmt" ([.group "test" [test.outline], .group "body" [body.outline]] ++
      match otherwise with
      | none   => []
      | some s => [.group "else" [s.outline]])
  | .loop test body _ => .node "WhileStmt" [.group "test" [test.outline], .group "body" [body.outline]]
  | .block body _ => .node "BlockStmt" (outlines body)
  | .expression e _ => e.outline

def outlines : List Stmt → List Outline
  | []      => []
  | s :: ss => s.outline :: outlines ss

end

mutual

-- The places in a statement, each with the kind of what stands there: first itself, then its parts in the order
-- of the source.
def places : Stmt → List (String × Position)
  | .record _ members p =>
    ("StructDecl", p) :: members.map fun m => ("MemberDecl", m.position)
  | .function _ _ formals body bodyPosition p =>
    ("FuncDecl", p) :: formals.map (fun f => ("Formal", f.position)) ++
      ("BlockStmt", bodyPosition) :: placesOfAll body
  | .branch _ body otherwise p =>
    ("IfStmt", p) :: body.places ++
      match otherwise with
      | none   => []
      | some s => s.places
  | .loop _ body p => ("WhileStmt", p) :: body.places
  | .block body p => ("BlockStmt", p) :: placesOfAll body
  | s => [(s.kindName, s.position)]

def placesOfAll : List Stmt → List (String × Position)
  | []      => []
  | s :: ss => s.places ++ placesOfAll ss

end

end Stmt
end BasicFrontEnd
