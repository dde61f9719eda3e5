import BasicFrontEnd.Proofs.Token.Lexical
import BasicFrontEnd.Program

/-!
Plain programs: those that the language can write. All else that the type of trees allows, as a block within a block or
an assignment within an expression, is left out. Programs are compared by what remains without places.
-/

namespace BasicFrontEnd

-- The text is a name: a word that is not reserved, and not too long for a token.
structure IsName (text : String) : Prop where
  identifier : Lexical.Lexeme .identifier text.toList text.toList
  fits       : text.utf8ByteSize ≤ Token.maxLength

-- The text can be the value of a string: each character is that of a byte.
structure IsStringValue (text : String) : Prop where
  bytes : ∀ c ∈ text.toList, c.toNat ≤ 0xFF
  fits  : text.utf8ByteSize ≤ Token.maxLength

inductive TypeSpec.Plain : TypeSpec → Prop
  | base   : b ∈ [.integer, .boolean, .string, .float, .void] → Plain ⟨b, none, n⟩
  | record : IsName name → Plain ⟨.record, some name, n⟩

structure TypedName.Plain (t : TypedName) : Prop where
  name : IsName t.name
  type : t.type.Plain

namespace Expr

def isIndex : Expr → Bool
  | index _ _ => true
  | _         => false

-- Expressions that are not assigned to, and have a value.
inductive Plain : Expr → Prop
  | call       : IsName callee → (∀ e ∈ arguments, Plain e) → Plain (.call callee arguments)
  | binary     : Plain left → Plain right → Plain (.binary operator left right)
  | negate     : Plain e → Plain (.negate e)
  | not        : Plain e → Plain (.not e)
  | member     : IsName record → IsName field → Plain (.member record field)
  | array      : elements ≠ [] → (∀ e ∈ elements, Plain e) → Plain (.array elements)
  | index      : Plain base → base.isIndex = false → indices ≠ [] → (∀ e ∈ indices, Plain e) →
                 Plain (.index base indices)
  | identifier : IsName name → Plain (.identifier name)
  | integer    : Plain (.integer value)
  | string     : IsStringValue value → Plain (.string value)
  | boolean    : Plain (.boolean value)
  | nil        : Plain .nil

-- What an assignment may begin with: it has to begin with a name.
def isPlainTarget : Expr → Bool
  | identifier _ | member _ _                                             => true
  | index (identifier _) _ | index (member _ _) _ | index (call _ _) _    => true
  | _                                                                     => false

end Expr

namespace Stmt

-- The declarations that stand anywhere. Only the names in `records` are known as types.
inductive PlainDeclaration (records : List String) : Stmt → Prop
  | declare : IsName name → type.Plain → (∀ record ∈ type.recordName, record ∈ records) →
              (∀ e ∈ initial, e.Plain) → PlainDeclaration records (.declare name type initial p)
  | label   : IsName name → PlainDeclaration records (.label name p)

-- The statements of a function, with or without a result.
inductive Plain (records : List String) (isVoid : Bool) : Stmt → Prop
  | declaration : PlainDeclaration records s → Plain records isVoid s
  | goto : IsName target → Plain records isVoid (.goto target p)
  | returning : isVoid = false → e.Plain → Plain records isVoid (.returning e p)
  | returningNone : isVoid = true → Plain records isVoid (.returning .empty p)
  | branch : test.Plain → (∀ s ∈ yes, Plain records isVoid s) →
      Plain records isVoid (.branch test (.block yes q) none p)
  | branchElse : test.Plain → (∀ s ∈ yes, Plain records isVoid s) → (∀ s ∈ no, Plain records isVoid s) →
      Plain records isVoid (.branch test (.block yes q) (some (.block no r)) p)
  | loop : test.Plain → (∀ s ∈ body, Plain records isVoid s) →
      Plain records isVoid (.loop test (.block body q) p)
  | call : e.Plain → e.isCall = true → Plain records isVoid (.expression e p)
  | assign : target.Plain → target.isPlainTarget = true → e.Plain →
      Plain records isVoid (.expression (.assign target e) p)

-- The statements outside of functions.
inductive PlainTop (records : List String) : Stmt → Prop
  | declaration : PlainDeclaration records s → PlainTop records s
  | function : IsName name → result.Plain → (∀ f ∈ formals, f.Plain) → (∀ s ∈ body, s.Plain records result.isVoid) →
      PlainTop records (.function name result formals body q p)
  | record : IsName name → (∀ m ∈ members, m.Plain) → PlainTop records (.record name members p)

end Stmt

namespace Program

-- The names of the records that the program declares.
def records (p : Program) : List String :=
  p.body.filterMap fun
    | .record name _ _ => some name
    | _                => none

def Plain (p : Program) : Prop :=
  ∀ s ∈ p.body, s.PlainTop p.records

end Program

section Bare

def TypedName.bare (t : TypedName) : TypedName :=
  { t with position := .nowhere }

mutual

-- The statement without places.
def Stmt.bare : Stmt → Stmt
  | .declare name type initial _           => .declare name type initial .nowhere
  | .record name members _                 => .record name (members.map (·.bare)) .nowhere
  | .function name result formals body _ _ =>
    .function name result (formals.map (·.bare)) (Stmt.bares body) .nowhere .nowhere
  | .label name _                          => .label name .nowhere
  | .goto target _                         => .goto target .nowhere
  | .returning value _                     => .returning value .nowhere
  | .branch test body none _               => .branch test body.bare none .nowhere
  | .branch test body (some otherwise) _   => .branch test body.bare (some otherwise.bare) .nowhere
  | .loop test body _                      => .loop test body.bare .nowhere
  | .block body _                          => .block (Stmt.bares body) .nowhere
  | .expression value _                    => .expression value .nowhere

def Stmt.bares : List Stmt → List Stmt
  | []      => []
  | s :: ss => s.bare :: Stmt.bares ss

end

@[simp]
theorem Stmt.bares_eq_map (ss : List Stmt) : Stmt.bares ss = ss.map Stmt.bare := by
  induction ss
  case nil => rw [Stmt.bares, List.map_nil]
  case cons ih => rw [Stmt.bares, ih, List.map_cons]

-- The program without places.
def Program.bare (p : Program) : Program :=
  ⟨p.body.map (·.bare)⟩

end Bare

end BasicFrontEnd
