import BasicFrontEnd.Compile
import BasicFrontEnd.Proofs.Grammar.ProgramEchoes
import BasicFrontEnd.Proofs.Relabel.Rules

/-!
What the rules for statements and whole programs do with relabelled tokens. Main statement: `Stream.read_relabel`.
-/

namespace BasicFrontEnd

namespace Grammar

open Rule State

variable {r : Relabelling} {s : State}

section Statements

def Body.relabel (r : Relabelling) (b : Body) : Body :=
  ⟨b.stmts.map (·.relabel r), r.place b.position⟩

-- The rule for bodies does the same with relabelled tokens.
def BodyRule.Relabels (r : Relabelling) (body body' : BodyRule) : Prop :=
  ∀ close others s, (body close others).Relabels r (·.relabel r) (body' close others) s

variable {body body' : BodyRule}

theorem Body.block_relabel (b : Body) :
    (Stmt.block (b.relabel r).stmts (b.relabel r).position) = (Stmt.block b.stmts b.position).relabel r := by
  rw [Stmt.relabel, Stmt.relabels_eq_map]
  rfl

theorem declaration_relabels {name : Token} (hname : name.kind = .identifier) :
    (declaration name).Relabels r (·.relabel r) (declaration (name.relabel r)) s := by
  refine .expect_bind fun _ => .peek_bind <| .get_bind ?_
  rw [isRecord_value_relabel, Token.kind_relabel, name.value_relabel_of_name r hname]
  split
  case isFalse => exact relabels_pure <| by rw [Stmt.relabel, Token.position_relabel]
  case isTrue =>
    refine typeSpec_relabels.bind fun _ => .if_accept (fun _ => ?_) fun _ => ?_
    case refine_1 =>
      exact expr_relabels.map fun _ => by simp only [Stmt.relabel, Option.map_some, Token.position_relabel]
    case refine_2 => exact relabels_pure <| by simp only [Stmt.relabel, Option.map_none, Token.position_relabel]

theorem gotoStmt_relabels : gotoStmt.Relabels r (·.relabel r) gotoStmt s :=
  .expect_bind fun _ => .expect_bind fun htarget => relabels_pure <| by
    rw [Token.value_relabel_of_name r htarget, Stmt.relabel, Token.position_relabel]

theorem ifStmt_relabels (hbody : body.Relabels r body') :
    (ifStmt body).Relabels r (·.relabel r) (ifStmt body') s := by
  refine .expect_bind fun _ => expr_relabels.bind fun _ => .expect_bind fun _ => ?_
  refine (hbody _ _ _).nested.bind fun {yes _} _ => ?_
  refine .bind (f := Option.map (·.relabel r)) ?_ fun {otherwise _} _ => .expect_bind fun _ => relabels_pure ?_
  case refine_1 =>
    refine .if_accept (fun _ => (hbody _ _ _).nested.map fun no => ?_) fun _ => relabels_pure rfl
    rw [no.block_relabel, Option.map_some]
  case refine_2 =>
    rw [yes.block_relabel, Token.position_relabel]
    cases otherwise <;> simp only [Stmt.relabel, Option.map_none, Option.map_some]

theorem whileStmt_relabels (hbody : body.Relabels r body') :
    (whileStmt body).Relabels r (·.relabel r) (whileStmt body') s := by
  refine .expect_bind fun _ => expr_relabels.bind fun _ => (hbody _ _ _).nested.bind fun {block _} _ => ?_
  exact .expect_bind fun _ => relabels_pure <| by rw [block.block_relabel, Token.position_relabel, Stmt.relabel]

theorem returnStmt_relabels : returnStmt.Relabels r (·.relabel r) returnStmt s := by
  refine .expect_bind fun _ => .get_bind ?_
  have hvoid : (s.next.relabel r).resultType.any (·.isVoid) = s.next.resultType.any (·.isVoid) := by
    simp [State.relabel, Option.any_map]
  rw [hvoid]
  split
  case isTrue => exact relabels_pure <| by rw [Stmt.relabel, Expr.relabel, Token.position_relabel]
  case isFalse => exact expr_relabels.map fun _ => by rw [Stmt.relabel, Token.position_relabel]

theorem expressionStmt_relabels : expressionStmt.Relabels r (·.relabel r) expressionStmt s := by
  refine .peek_bind <| expr_relabels.bind fun {e _} _ => .if_accept (fun _ => ?_) fun _ => ?_
  case refine_1 => exact expr_relabels.map fun _ => by rw [Stmt.relabel, Expr.relabel, Token.position_relabel]
  case refine_2 =>
    rw [e.isCall_relabel]
    split
    case isTrue => exact relabels_pure <| by rw [Stmt.relabel, Token.position_relabel]
    case isFalse => exact relabels_unexpected

theorem unended_relabels (hbody : body.Relabels r body') :
    (unended body).Relabels r (·.relabel r) (unended body') s := by
  refine .peekKind_bind ?_
  split
  case h_1 hname =>
    refine .consume_bind <| .peekKind_bind ?_
    split
    case isTrue => exact declaration_relabels hname
    case isFalse => exact relabels_backup.bind fun _ => expressionStmt_relabels
  case h_2 => exact gotoStmt_relabels
  case h_3 => exact ifStmt_relabels hbody
  case h_4 => exact whileStmt_relabels hbody
  case h_5 => exact returnStmt_relabels
  case h_6 => exact expressionStmt_relabels

theorem Rule.Relabels.ended {f : α → α} {rule rule' : Rule α} (h : rule.Relabels r f rule' s) :
    (ended rule).Relabels r f (ended rule') s :=
  h.bind fun _ => relabels_accept.map fun _ => rfl

theorem bodyWith_relabels {stmt stmt' : Rule Stmt} (hstmt : ∀ s, stmt.Relabels r (·.relabel r) stmt' s) :
    BodyRule.Relabels r (bodyWith stmt) (bodyWith stmt') := by
  intro close others s
  rw [bodyWith_eq, bodyWith_eq]
  refine .peek_bind <| .map (f := List.map (·.relabel r)) ?_ fun _ => rfl
  refine .repeatFrom (f := List.map (·.relabel r)) ?_ rfl
  refine fun stmts u => .peekKind_bind ?_
  split
  case isTrue => exact relabels_pure <| by simp only [Round.map, List.map_reverse]
  case isFalse =>
    split
    case isTrue => exact relabels_unexpected
    case isFalse => exact (hstmt u).map fun _ => rfl

theorem bodyWithin_relabels (left : List Token) :
    BodyRule.Relabels r (bodyWithin left) (bodyWithin (left.map (·.relabel r))) := by
  induction left
  case nil => exact fun _ _ _ => relabels_unexpected
  case cons ih => exact bodyWith_relabels fun _ => (unended_relabels ih).ended

theorem body_relabels : BodyRule.Relabels r Grammar.body Grammar.body :=
  fun close others s => .get_bind <| bodyWithin_relabels s.stream.rest close others s

end Statements

section Programs

theorem formal_relabels : formal.Relabels r (·.relabel r) formal s := by
  refine .peek_bind <| typeSpec_relabels.bind fun _ => .expect_bind fun hname => dimensions_relabels.map fun _ => ?_
  rw [Token.value_relabel_of_name r hname]
  rfl

theorem formals_relabels : formals.Relabels r (List.map (·.relabel r)) formals s := by
  refine .peekKind_bind ?_
  split
  case isTrue => exact relabels_pure rfl
  case isFalse => exact .separated fun _ => formal_relabels

theorem Rule.Relabels.withResultType {f : α → α} {rule rule' : Rule α} {type : TypeSpec}
    (h : rule.Relabels r f rule' (s.inFunction type)) :
    (withResultType type rule).Relabels r f (withResultType (type.relabel r) rule') s := by
  have hinside : (s.relabel r).inFunction (type.relabel r) = (s.inFunction type).relabel r := rfl
  unfold Rule.Relabels at h
  rw [Rule.Relabels, outcome_withResultType, outcome_withResultType, hinside]
  generalize rule.outcome (s.inFunction type) = res at h
  generalize rule'.outcome ((s.inFunction type).relabel r) = res' at h
  cases h
  case ok ht => exact .ok (congrArg State.outside ht)
  case error hd ht => exact .error hd (congrArg State.outside ht)

theorem functionDecl_relabels : functionDecl.Relabels r (·.relabel r) functionDecl s := by
  refine .expect_bind fun _ => .expect_bind fun hname => .expect_bind fun _ => formals_relabels.bind fun _ => ?_
  refine .expect_bind fun _ => .expect_bind fun _ => typeSpec_relabels.bind fun _ => ?_
  refine (body_relabels _ _ _).withResultType.bind fun _ => .expect_bind fun _ => relabels_pure ?_
  rw [Token.value_relabel_of_name r hname, Stmt.relabel, Stmt.relabels_eq_map, Token.position_relabel]
  rfl

theorem unendedMember_relabels : unendedMember.Relabels r (·.relabel r) unendedMember s := by
  refine .expect_bind fun hname => .expect_bind fun _ => typeSpec_relabels.map fun _ => ?_
  rw [Token.value_relabel_of_name r hname]
  rfl

theorem recordDecl_relabels : recordDecl.Relabels r (·.relabel r) recordDecl s := by
  rw [recordDecl_eq]
  refine .expect_bind fun _ => .expect_bind fun hname => ?_
  refine .bind (f := List.map (·.relabel r)) (.repeatFrom (f := List.map (·.relabel r)) ?_ rfl) fun _ => ?_
  case refine_1 =>
    refine fun members u => .peekKind_bind ?_
    rw [member_eq]
    split
    case isTrue => exact relabels_pure <| by simp only [Round.map, List.map_reverse]
    case isFalse => exact unendedMember_relabels.ended.map fun _ => rfl
  case refine_2 =>
    refine .expect_bind fun _ => relabels_pure ?_
    rw [Token.value_relabel_of_name r hname, Stmt.relabel, Token.position_relabel]

theorem unendedTop_relabels : unendedTop.Relabels r (·.relabel r) unendedTop s := by
  refine .peekKind_bind ?_
  split
  case h_1 => exact functionDecl_relabels
  case h_2 => exact recordDecl_relabels
  case h_3 hname =>
    refine .consume_bind <| .peekKind_bind ?_
    split
    case isTrue => exact declaration_relabels hname
    case isFalse => exact relabels_unexpected
  case h_4 => exact relabels_unexpected

theorem program_relabels : program.Relabels r (·.relabel r) program s := by
  refine .repeatFrom (f := List.map (·.relabel r)) (fun stmts u => .peekKind_bind ?_) rfl
  rw [topLevelStmt_eq]
  split
  case isTrue => exact relabels_pure <| by simp only [Round.map, Program.relabel, List.map_reverse]
  case isFalse => exact unendedTop_relabels.ended.map fun _ => rfl

end Programs

section Streams

theorem declaredRecords_relabel (ts : List Token) :
    declaredRecords (ts.map (·.relabel r)) = (declaredRecords ts).map r.name := by
  induction ts
  case nil => rfl
  case cons v ts ih =>
    cases ts
    case nil => rfl
    case cons n ts =>
      rw [List.map_cons] at ih
      rw [List.map_cons, List.map_cons, declaredRecords, declaredRecords, ih]
      by_cases h : v.kind = .keyword .structWord ∧ n.kind = .identifier
      case pos =>
        have h' : (v.relabel r).kind = .keyword .structWord ∧ (n.relabel r).kind = .identifier := h
        rw [if_pos h, if_pos h', n.value_relabel_of_name r h.2, List.map_cons]
      case neg =>
        have h' : ¬((v.relabel r).kind = .keyword .structWord ∧ (n.relabel r).kind = .identifier) := h
        rw [if_neg h, if_neg h']

theorem eraseDups_map {f : String → String} (hf : Function.Injective f) (names : List String) :
    (names.map f).eraseDups = names.eraseDups.map f :=
  match names with
  | []            => rfl
  | name :: names => by
    have hlength : (names.filter fun n => !n == name).length < names.length + 1 :=
      Nat.lt_succ_of_le (List.length_filter_le ..)
    have hfilter : ((fun n => !n == f name) ∘ f) = fun n => !n == name := by
      funext n
      simp [hf.eq_iff]
    rw [List.map_cons, List.eraseDups_cons, List.eraseDups_cons, List.filter_map, hfilter, eraseDups_map hf,
      List.map_cons]
termination_by names.length

theorem State.ofStream_relabel (stream : Stream) :
    State.ofStream (stream.relabel r) = (State.ofStream stream).relabel r := by
  have hrecords : (declaredRecords (stream.relabel r).toList).eraseDups =
      (declaredRecords stream.toList).eraseDups.map r.name := by
    rw [Stream.toList_relabel, declaredRecords_relabel, eraseDups_map r.injective]
  rw [State.ofStream, hrecords]
  rfl

end Streams

end Grammar

-- The program of the relabelled tokens is the relabelled program.
theorem Stream.read_relabel (r : Relabelling) (stream : Stream) :
    Agrees r (·.relabel r) stream.read.1 (stream.relabel r).read.1 := by
  have h : Grammar.program.Relabels r (·.relabel r) Grammar.program (.ofStream stream) := Grammar.program_relabels
  rw [Grammar.Rule.Relabels, ← Grammar.State.ofStream_relabel] at h
  exact h.agrees

end BasicFrontEnd
