import BasicFrontEnd.Grammar.Program
import BasicFrontEnd.Proofs.Grammar.Derives

/-!
The grammar of types, statements and programs. Where a phrase may end depends on the token behind it, so the forms of
statements speak of that token as well: `Stmt.Form … ts next s` says that the tokens `ts` write `s` in front of `next`.
-/

namespace BasicFrontEnd

-- The kinds of token that begin a statement of a body.
def Kind.beginsStmt (k : Kind) : Bool :=
  k.beginsExpr || k ∈ [.keyword .gotoWord, .keyword .returnWord, .keyword .ifWord, .keyword .whileWord]

namespace Grammar

-- A pair of brackets for each dimension.
inductive Brackets : List Token → Nat → Prop
  | none : Brackets [] 0
  | more : opening.kind = .symbol .openBracket → closing.kind = .symbol .closeBracket → Brackets ts n →
           Brackets (opening :: closing :: ts) (n + 1)

inductive TypeForm : List Token → TypeSpec → Prop
  | base   : t.kind.isTypeKeyword = true → Brackets ts n → TypeForm (t :: ts) ⟨.ofKind t.kind, none, n⟩
  | record : t.kind = .identifier → Brackets ts n → TypeForm (t :: ts) ⟨.record, some t.value, n⟩

-- What the forms of statements depend on.
structure Setting where
  -- The names that may stand for types.
  isRecord : String → Bool
  -- Whether the function around has no result.
  isVoid   : Bool := false

-- Behind a colon, the token begins a type.
def Setting.beginsType (g : Setting) (t : Token) : Bool :=
  t.kind.isTypeKeyword || (t.kind == .identifier && g.isRecord t.value)

-- One item or more of the same form, each of which may be ended by a semicolon.
inductive Listing (Form : List Token → Token → α → Prop) : List Token → Token → List α → Prop
  | nil    : Listing Form [] close []
  | closed : Form ts semicolon a → semicolon.kind = .symbol .semicolon → Listing Form us close as →
             Listing Form (ts ++ semicolon :: us) close (a :: as)
  | plain  : Form ts (us.headD close) a → (us.headD close).kind ≠ .symbol .semicolon → Listing Form us close as →
             Listing Form (ts ++ us) close (a :: as)

-- A variable or a label. The token after the colon of a label must not begin a type.
inductive DeclarationForm (g : Setting) (n : Nat) : List Token → Token → Stmt → Prop
  | declare : name.kind = .identifier → colon.kind = .symbol .colon → TypeForm (t :: ts) type →
      g.beginsType t = true → next.kind ≠ .symbol .openBracket → next.kind ≠ .symbol .assign →
      DeclarationForm g n (name :: colon :: t :: ts) next (.declare name.value type none name.position)
  | initialized : name.kind = .identifier → colon.kind = .symbol .colon → TypeForm (t :: ts) type →
      g.beginsType t = true → assign.kind = .symbol .assign → Derives .disjunction n us e →
      BindingLevel.disjunction.Stops next.kind →
      DeclarationForm g n (name :: colon :: t :: (ts ++ assign :: us)) next
        (.declare name.value type (some e) name.position)
  | label : name.kind = .identifier → colon.kind = .symbol .colon → g.beginsType next = false →
      DeclarationForm g n [name, colon] next (.label name.value name.position)

-- A statement of a body. `Bodies` are the forms of the bodies within.
inductive StmtForm (g : Setting) (n : Nat) (Bodies : List Token → Token → List Stmt → Prop) :
    List Token → Token → Stmt → Prop
  | declaration : DeclarationForm g n ts next s → StmtForm g n Bodies ts next s
  | goto : word.kind = .keyword .gotoWord → target.kind = .identifier →
      StmtForm g n Bodies [word, target] next (.goto target.value word.position)
  | returning : word.kind = .keyword .returnWord → g.isVoid = false → Derives .disjunction n ts e →
      BindingLevel.disjunction.Stops next.kind → StmtForm g n Bodies (word :: ts) next (.returning e word.position)
  | returningNone : word.kind = .keyword .returnWord → g.isVoid = true →
      StmtForm g n Bodies [word] next (.returning .empty word.position)
  | branch : word.kind = .keyword .ifWord → Derives .disjunction n ts test → thenWord.kind = .keyword .thenWord →
      Bodies us endWord yes → endWord.kind = .keyword .endWord →
      StmtForm g n Bodies (word :: (ts ++ thenWord :: (us ++ [endWord]))) next
        (.branch test (.block yes (us.headD endWord).position) none word.position)
  | branchElse : word.kind = .keyword .ifWord → Derives .disjunction n ts test →
      thenWord.kind = .keyword .thenWord → Bodies us elseWord yes → elseWord.kind = .keyword .elseWord →
      Bodies vs endWord no → endWord.kind = .keyword .endWord →
      StmtForm g n Bodies (word :: (ts ++ thenWord :: (us ++ elseWord :: (vs ++ [endWord])))) next
        (.branch test (.block yes (us.headD elseWord).position) (some (.block no (vs.headD endWord).position))
          word.position)
  -- Nothing stands between the test and the body.
  | loop : word.kind = .keyword .whileWord → Derives .disjunction n ts test →
      BindingLevel.disjunction.Stops (us.headD endWord).kind → Bodies us endWord stmts →
      endWord.kind = .keyword .endWord →
      StmtForm g n Bodies (word :: (ts ++ (us ++ [endWord]))) next
        (.loop test (.block stmts (us.headD endWord).position) word.position)
  | call : Derives .disjunction n (t :: ts) e → e.isCall = true → BindingLevel.disjunction.Stops next.kind →
      next.kind ≠ .symbol .assign → StmtForm g n Bodies (t :: ts) next (.expression e t.position)
  | assign : Derives .disjunction n (t :: ts) target → assign.kind = .symbol .assign → Derives .disjunction n us e →
      BindingLevel.disjunction.Stops next.kind →
      StmtForm g n Bodies (t :: (ts ++ assign :: us)) next (.expression (.assign target e) t.position)

-- The forms of a body that is entered with `n` levels of nesting left.
def BodyForm (g : Setting) : Nat → List Token → Token → List Stmt → Prop
  | 0     => fun _ _ _ => False
  | n + 1 => Listing (StmtForm g n (BodyForm g n))

inductive FormalForm : List Token → TypedName → Prop
  | mk : TypeForm (t :: ts) type → name.kind = .identifier → Brackets us n →
         FormalForm (t :: (ts ++ name :: us)) ⟨name.value, { type with dimensions := type.dimensions + n }, t.position⟩

-- The tokens write formals with commas between them.
def FormalsForm (ts : List Token) (as : List TypedName) : Prop :=
  ∃ parts : List (List Token × TypedName), as = parts.map Prod.snd ∧ (∀ part ∈ parts, FormalForm part.1 part.2) ∧
    Separated (parts.map Prod.fst) ts

/-- What stands before the body of a function. -/
structure Signature where
  name     : String
  formals  : List TypedName
  result   : TypeSpec
  position : Position

inductive SignatureForm : List Token → Signature → Prop
  | mk : word.kind = .keyword .funcWord → name.kind = .identifier → opening.kind = .symbol .openParen →
      FormalsForm ts as → closing.kind = .symbol .closeParen → arrow.kind = .symbol .arrow → TypeForm us result →
      SignatureForm (word :: name :: opening :: (ts ++ closing :: arrow :: us)) ⟨name.value, as, result, word.position⟩

inductive MemberForm : List Token → Token → TypedName → Prop
  | mk : name.kind = .identifier → colon.kind = .symbol .colon → TypeForm ts type →
         next.kind ≠ .symbol .openBracket → MemberForm (name :: colon :: ts) next ⟨name.value, type, name.position⟩

-- A statement outside of functions, with no level of nesting open.
inductive TopForm (isRecord : String → Bool) (n : Nat) : List Token → Token → Stmt → Prop
  | declaration : DeclarationForm ⟨isRecord, false⟩ n ts next s → TopForm isRecord n ts next s
  | function (parts : List (List Token × TypedName)) : word.kind = .keyword .funcWord → name.kind = .identifier →
      opening.kind = .symbol .openParen → (∀ part ∈ parts, FormalForm part.1 part.2) →
      Separated (parts.map Prod.fst) ts → closing.kind = .symbol .closeParen → arrow.kind = .symbol .arrow →
      TypeForm us result → (vs.headD endWord).kind ≠ .symbol .openBracket →
      Listing (StmtForm ⟨isRecord, result.isVoid⟩ n (BodyForm ⟨isRecord, result.isVoid⟩ n)) vs endWord stmts →
      endWord.kind = .keyword .endWord →
      TopForm isRecord n
        (word :: name :: opening :: (ts ++ closing :: arrow :: (us ++ (vs ++ [endWord])))) next
        (.function name.value result (parts.map Prod.snd) stmts (vs.headD endWord).position word.position)
  | record : word.kind = .keyword .structWord → name.kind = .identifier → Listing MemberForm ts endWord members →
      endWord.kind = .keyword .endWord →
      TopForm isRecord n (word :: name :: (ts ++ [endWord])) next (.record name.value members word.position)

-- A signature is that of a function, with a body and the word that ends it.
theorem SignatureForm.function {isRecord : String → Bool} {us : List Token} {endWord : Token}
    (h : SignatureForm ts g) (hbracket : (us.headD endWord).kind ≠ .symbol .openBracket)
    (hbody : Listing (StmtForm ⟨isRecord, g.result.isVoid⟩ n (BodyForm ⟨isRecord, g.result.isVoid⟩ n)) us endWord stmts)
    (hend : endWord.kind = .keyword .endWord) :
    TopForm isRecord n (ts ++ (us ++ [endWord])) next
      (.function g.name g.result g.formals stmts (us.headD endWord).position g.position) := by
  cases h
  case mk hword hname hopen hformals hclose harrow hresult =>
    obtain ⟨parts, rfl, hparts, hsep⟩ := hformals
    simpa using TopForm.function parts hword hname hopen hparts hsep hclose harrow hresult hbracket hbody hend

theorem FormalForm.exists_head (h : FormalForm ts a) :
    ∃ t us, ts = t :: us ∧ t.kind ≠ .symbol .closeParen := by
  cases h
  case mk htype hname hdims =>
    refine ⟨_, _, rfl, fun hclose => ?_⟩
    cases htype
    case base hword _ => rw [hclose] at hword; contradiction
    case record hword _ => rw [hclose] at hword; contradiction

theorem DeclarationForm.exists_head (h : DeclarationForm g n ts next s) :
    ∃ name colon us, ts = name :: colon :: us ∧ name.kind = .identifier ∧ colon.kind = .symbol .colon := by
  cases h
  case declare hname hcolon _ _ _ _ => exact ⟨_, _, _, rfl, hname, hcolon⟩
  case initialized hname hcolon _ _ _ _ _ => exact ⟨_, _, _, rfl, hname, hcolon⟩
  case label hname hcolon _ => exact ⟨_, _, _, rfl, hname, hcolon⟩

theorem StmtForm.exists_head (h : StmtForm g n Bodies ts next s) :
    ∃ t us, ts = t :: us ∧ t.kind.beginsStmt = true := by
  cases h
  case declaration h =>
    obtain ⟨name, _, _, rfl, hname, _⟩ := h.exists_head
    exact ⟨name, _, rfl, by rw [hname]; rfl⟩
  case call he _ _ _ | assign he _ _ _ =>
    obtain ⟨_, _, ⟨⟩, ht⟩ := he.exists_head
    exact ⟨_, _, rfl, by rw [Kind.beginsStmt, ht]; rfl⟩
  all_goals exact ⟨_, _, rfl, by simp [Kind.beginsStmt, *]⟩

end Grammar
end BasicFrontEnd
