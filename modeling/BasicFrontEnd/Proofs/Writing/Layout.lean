import BasicFrontEnd.Proofs.Grammar.Derives
import BasicFrontEnd.Program

/-!
Writing programs out as words. Expressions get parentheses where they bind too loosely, and around the operand of a
minus that would begin with a number; a label gets a semicolon. Further parentheses and semicolons may be written.
-/

namespace BasicFrontEnd

open Grammar (BindingLevel)

-- A token as it is written: no matter where.
structure Word where
  kind  : Kind
  value : String
  deriving DecidableEq

def Token.word (t : Token) : Word :=
  ⟨t.kind, t.value⟩

-- Words in a row, and how many levels of nesting are open among them at once.
structure Layout where
  words   : List Word
  nesting : Nat

namespace Layout

def empty : Layout :=
  ⟨[], 0⟩

def word (kind : Kind) (value : String) : Layout :=
  ⟨[⟨kind, value⟩], 0⟩

def symbol (s : Symbol) : Layout :=
  word (.symbol s) s.spelling

def keyword (k : Keyword) : Layout :=
  word (.keyword k) k.spelling

def name (n : String) : Layout :=
  word .identifier n

def operator (o : Operator) : Layout :=
  word o.kind o.write

instance : Append Layout where
  append x y := ⟨x.words ++ y.words, max x.nesting y.nesting⟩

-- The same words, one level of nesting further in.
def nested (x : Layout) : Layout :=
  { x with nesting := x.nesting + 1 }

def join (xs : List Layout) : Layout :=
  xs.foldr (· ++ ·) empty

-- Commas between the layouts.
def separated : List Layout → Layout
  | []           => empty
  | [x]          => x
  | x :: y :: xs => x ++ symbol .comma ++ separated (y :: xs)

def enclosed (opening closing : Symbol) (x : Layout) : Layout :=
  symbol opening ++ x.nested ++ symbol closing

def parens (x : Layout) : Layout :=
  x.enclosed .openParen .closeParen

-- Parentheses around what binds more loosely than the level asks, and wherever they are `wanted`.
def within (wanted : Bool) (level own : BindingLevel) (x : Layout) : Layout :=
  if wanted || own.rank < level.rank then x.parens else x

def ended (closed : Bool) (x : Layout) : Layout :=
  if closed then x ++ symbol .semicolon else x

-- A number right behind a minus would belong to it.
def behindMinus (x : Layout) : Layout :=
  if x.words.head?.any (·.kind.isNumber) then x.parens else x

end Layout

-- What the writing of a program is free to choose.
structure Style where
  -- Gets parentheses also where it needs none.
  parenthesizes : Expr → Bool
  -- Gets a semicolon behind it.
  closesStmt    : Stmt → Bool
  closesMember  : TypedName → Bool

namespace Expr

-- How tightly the expression binds as it is written.
def level : Expr → BindingLevel
  | binary operator _ _               => operator.level
  | negate _ | not _                  => .operand
  | member _ _ | index _ _ | call _ _ => .suffixed
  | integer value                     => if value < 0 then .suffixed else .primary
  | _                                 => .primary

mutual

def layout (style : Style) : Expr → Layout
  | call callee arguments =>
    .name callee ++ .enclosed .openParen .closeParen (.separated (layouts style arguments))
  | binary operator left right =>
    let leftLevel := if operator.isComparison then operator.level.tighter else operator.level
    .within (style.parenthesizes left) leftLevel left.level (left.layout style) ++ .operator operator ++
      .within (style.parenthesizes right) operator.level.tighter right.level (right.layout style)
  | assign target value =>
    target.layout style ++ .symbol .assign ++
      .within (style.parenthesizes value) .disjunction value.level (value.layout style)
  | negate operand =>
    .symbol .minus ++ .nested (.behindMinus
      (.within (style.parenthesizes operand) .operand operand.level (operand.layout style)))
  | not operand =>
    .symbol .bang ++ .nested (.within (style.parenthesizes operand) .operand operand.level (operand.layout style))
  | empty => .empty
  | member record field => .name record ++ .symbol .dot ++ .name field
  | array elements => .enclosed .openCurly .closeCurly (.separated (layouts style elements))
  -- What is assigned to has to begin with a name.
  | index base indices =>
    .within false .suffixed base.level (base.layout style) ++
      .join ((layouts style indices).map (.enclosed .openBracket .closeBracket))
  | identifier name => .name name
  | integer value =>
    let digits := .word .integer (toString value.toInt.natAbs)
    if value < 0 then .symbol .minus ++ digits else digits
  | float value => .word .float value.write
  | string value => .word .string value
  | boolean value => .keyword (if value then .trueWord else .falseWord)
  | nil => .keyword .nilWord

-- Whole expressions.
def layouts (style : Style) : List Expr → List Layout
  | []      => []
  | e :: es => .within (style.parenthesizes e) .disjunction e.level (e.layout style) :: layouts style es

end

-- The expression where nothing around it asks for parentheses.
def wholeLayout (style : Style) (e : Expr) : Layout :=
  .within (style.parenthesizes e) .disjunction e.level (e.layout style)

-- The expression behind `return`: nothing where there is no result.
def returnedLayout (style : Style) : Expr → Layout
  | empty => .empty
  | e     => e.wholeLayout style

@[simp]
theorem layouts_eq_map (style : Style) (es : List Expr) : layouts style es = es.map (wholeLayout style) := by
  induction es
  case nil => rw [layouts, List.map_nil]
  case cons ih => rw [layouts, ih, List.map_cons, wholeLayout]

end Expr

namespace TypeSpec

-- The word that names the type without its dimensions; none names a type that is not known.
def baseLayout (type : TypeSpec) : Layout :=
  match type.recordName, type.base with
  | some name, _    => .name name
  | none, .integer  => .keyword .intWord
  | none, .float    => .keyword .floatWord
  | none, .string   => .keyword .stringWord
  | none, .boolean  => .keyword .boolWord
  | none, .void     => .keyword .voidWord
  | none, .nil      => .keyword .nilWord
  | none, _         => .empty

def layout (type : TypeSpec) : Layout :=
  type.baseLayout ++ .join (.replicate type.dimensions (.symbol .openBracket ++ .symbol .closeBracket))

end TypeSpec

namespace Stmt

-- A type, as a formal is written, and a name.
def formalLayout (formal : TypedName) : Layout :=
  formal.type.layout ++ .name formal.name

def memberLayout (member : TypedName) : Layout :=
  .name member.name ++ .symbol .colon ++ member.type.layout

-- What looks like a type behind the colon of a label would make it a variable.
def isClosed (style : Style) (s : Stmt) : Bool :=
  match s with
  | label _ _ => true
  | s         => style.closesStmt s

mutual

def layout (style : Style) : Stmt → Layout
  | declare name type initial _ =>
    .name name ++ .symbol .colon ++ type.layout ++
      (initial.map fun e => .symbol .assign ++ e.wholeLayout style).getD .empty
  | record name members _ =>
    .keyword .structWord ++ .name name ++
      .join (members.map fun m => (memberLayout m).ended (style.closesMember m)) ++ .keyword .endWord
  | function name result formals body _ _ =>
    .keyword .funcWord ++ .name name ++ .symbol .openParen ++ .separated (formals.map formalLayout) ++
      .symbol .closeParen ++ .symbol .arrow ++ result.layout ++ bodyLayout style body ++ .keyword .endWord
  | label name _ => .name name ++ .symbol .colon
  | goto target _ => .keyword .gotoWord ++ .name target
  | returning value _ => .keyword .returnWord ++ value.returnedLayout style
  | branch test body otherwise _ =>
    .keyword .ifWord ++ test.wholeLayout style ++ .keyword .thenWord ++ (body.layout style).nested ++
      (match otherwise with
      | none   => .empty
      | some s => .keyword .elseWord ++ (s.layout style).nested) ++
      .keyword .endWord
  | loop test body _ =>
    .keyword .whileWord ++ test.wholeLayout style ++ (body.layout style).nested ++ .keyword .endWord
  | block body _ => bodyLayout style body
  | expression value _ => value.layout style

def bodyLayout (style : Style) : List Stmt → Layout
  | []      => .empty
  | s :: ss => (s.layout style).ended (s.isClosed style) ++ bodyLayout style ss

end

theorem bodyLayout_eq (style : Style) (ss : List Stmt) :
    bodyLayout style ss = .join (ss.map fun s => (s.layout style).ended (s.isClosed style)) := by
  induction ss
  case nil => rw [bodyLayout]; rfl
  case cons ih => rw [bodyLayout, ih]; rfl

end Stmt

-- The program as it is written.
def Program.layout (style : Style) (p : Program) : Layout :=
  Stmt.bodyLayout style p.body

end BasicFrontEnd
