import BasicFrontEnd.Proofs.Grammar.Statements

/-!
Properties that a rule has where the rules that it is made of have them. A loop has such a property if each of its
rounds does, and the rules for bodies have it at every level of nesting if the statements in a body do.
-/

namespace BasicFrontEnd.Grammar

open Rule

-- What fails at the next token has the property, and what runs one rule after another has it from both.
structure Rule.Composes (P : ∀ {α : Type}, Rule α → Prop) : Prop where
  pure  : ∀ {α : Type} (a : α), P (pure a : Rule α)
  bind  : ∀ {α β : Type} {x : Rule α} {f : α → Rule β}, P x → (∀ a, P (f a)) → P (x >>= f)
  stops : ∀ {α : Type} (kind : Kind), P (unexpected kind.describe : Rule α)

namespace Rule.Composes

variable {P : ∀ {α : Type}, Rule α → Prop} {round : β → Rule (Round β γ)} {stmt : Rule Stmt}

theorem repeatWithin (h : Composes P) (hround : ∀ b, P (round b)) (left : List Token) (b : β) :
    P (repeatWithin round left b) := by
  induction left generalizing b
  case nil => exact h.stops .eof
  case cons left ih =>
    refine h.bind (hround b) fun r => ?_
    cases r
    case again b => exact ih b
    case done c => exact h.pure c

theorem repeatFrom (h : Composes P) (hget : P (get : Rule State)) (hround : ∀ b, P (round b)) (b : β) :
    P (repeatFrom round b) :=
  h.bind hget fun s => h.repeatWithin hround s.stream.rest b

theorem bodyRound (h : Composes P) (hget : P (get : Rule State)) (hstmt : P stmt) (close : Kind) (others : List Kind)
    (stmts : List Stmt) : P (bodyRound stmt close others stmts) := by
  have hkind : P peekKind := h.bind hget fun _ => h.pure _
  refine h.bind hkind fun kind => ?_
  split
  case isTrue => exact h.pure _
  case isFalse =>
    split
    case isTrue => exact h.stops close
    case isFalse => exact h.bind hstmt fun _ => h.pure _

theorem bodyWith (h : Composes P) (hget : P (get : Rule State)) (hstmt : P stmt) (close : Kind) (others : List Kind) :
    P (bodyWith stmt close others) := by
  have hpeek : P peek := h.bind hget fun _ => h.pure _
  have hstmts : P (Rule.repeatFrom (Grammar.bodyRound stmt close others) []) :=
    h.repeatFrom hget (h.bodyRound hget hstmt close others) []
  rw [bodyWith_eq]
  exact h.bind hpeek fun _ => h.bind hstmts fun _ => h.pure _

theorem bodyWithin (h : Composes P) (hget : P (get : Rule State))
    (hstmt : ∀ {body : BodyRule}, (∀ close others, P (body close others)) → P (stmtWith body)) (left : List Token)
    (close : Kind) (others : List Kind) : P (bodyWithin left close others) := by
  induction left generalizing close others
  case nil => exact h.stops close
  case cons left ih => exact h.bodyWith hget (hstmt ih) close others

theorem body (h : Composes P) (hget : P (get : Rule State))
    (hstmt : ∀ {body : BodyRule}, (∀ close others, P (body close others)) → P (stmtWith body)) (close : Kind)
    (others : List Kind) : P (body close others) :=
  h.bind hget fun s => h.bodyWithin hget hstmt s.stream.rest close others

end Rule.Composes
end BasicFrontEnd.Grammar
