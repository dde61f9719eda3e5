import BasicFrontEnd.Proofs.Grammar.Formed
import BasicFrontEnd.Proofs.Writing.Plain

/-!
The shape of the trees that are read, beyond what their types say. Main statement: `regular_of_read`.
-/

namespace BasicFrontEnd

-- A record has a name, and other types have none. Nothing is declared with the type of `nil` or with an unknown type.
structure TypeSpec.Regular (t : TypeSpec) : Prop where
  recordName : t.recordName.isSome = true ↔ t.base = .record
  ne_nil     : t.base ≠ .nil
  ne_unknown : t.base ≠ .unknown

-- The expressions within statements: an assignment and the empty expression are none of them.
inductive Expr.Regular : Expr → Prop
  | call       : (∀ e ∈ arguments, Regular e) → Regular (.call callee arguments)
  | binary     : Regular left → Regular right → Regular (.binary operator left right)
  | negate     : Regular e → Regular (.negate e)
  | not        : Regular e → Regular (.not e)
  | member     : Regular (.member record field)
  | array      : elements ≠ [] → (∀ e ∈ elements, Regular e) → Regular (.array elements)
  | index      : Regular base → base.isIndex = false → indices ≠ [] → (∀ e ∈ indices, Regular e) →
                 Regular (.index base indices)
  | identifier : Regular (.identifier name)
  | integer    : Regular (.integer value)
  | float      : Regular (.float value)
  | string     : Regular (.string value)
  | boolean    : Regular (.boolean value)
  | nil        : Regular .nil

namespace Stmt

-- The declarations that stand anywhere.
inductive RegularDeclaration : Stmt → Prop
  | declare : type.Regular → (∀ e ∈ initial, e.Regular) → RegularDeclaration (.declare name type initial p)
  | label   : RegularDeclaration (.label name p)

-- The statements of a function, with or without a result: blocks are bodies of other statements, and nothing else is.
inductive Regular (isVoid : Bool) : Stmt → Prop
  | declaration : RegularDeclaration s → Regular isVoid s
  | goto : Regular isVoid (.goto target p)
  | returning : isVoid = false → e.Regular → Regular isVoid (.returning e p)
  | returningNone : isVoid = true → Regular isVoid (.returning .empty p)
  | branch : test.Regular → (∀ s ∈ yes, Regular isVoid s) → Regular isVoid (.branch test (.block yes q) none p)
  | branchElse : test.Regular → (∀ s ∈ yes, Regular isVoid s) → (∀ s ∈ no, Regular isVoid s) →
      Regular isVoid (.branch test (.block yes q) (some (.block no r)) p)
  | loop : test.Regular → (∀ s ∈ body, Regular isVoid s) → Regular isVoid (.loop test (.block body q) p)
  | call : e.Regular → e.isCall = true → Regular isVoid (.expression e p)
  | assign : target.Regular → e.Regular → Regular isVoid (.expression (.assign target e) p)

-- The statements outside of functions. Functions and records stand nowhere else.
inductive RegularTop : Stmt → Prop
  | declaration : RegularDeclaration s → RegularTop s
  | function : result.Regular → (∀ f ∈ formals, f.type.Regular) → (∀ s ∈ body, s.Regular result.isVoid) →
      RegularTop (.function name result formals body q p)
  | record : (∀ m ∈ members, m.type.Regular) → RegularTop (.record name members p)

end Stmt

def Program.Regular (p : Program) : Prop :=
  ∀ s ∈ p.body, s.RegularTop

namespace Grammar

theorem TypeForm.regular (h : TypeForm ts type) : type.Regular := by
  cases h
  case base t n hword _ =>
    unfold Kind.isTypeKeyword at hword
    split at hword
    case h_6 => contradiction
    all_goals
      rename_i hkind
      constructor <;> simp [hkind, BaseType.ofKind]
  case record => constructor <;> simp

-- The dimensions do not matter.
theorem TypeForm.regular_with (h : TypeForm ts type) (n : Nat) : TypeSpec.Regular { type with dimensions := n } :=
  ⟨h.regular.recordName, h.regular.ne_nil, h.regular.ne_unknown⟩

theorem regular_of_number (h : number t negative = .ok e) : e.Regular := by
  simp only [number] at h
  split at h
  case h_2 => contradiction
  case h_1 literal hliteral =>
    obtain rfl := Except.ok.inj h
    split at hliteral
    case isTrue =>
      obtain ⟨_, _, rfl⟩ := Option.map_eq_some_iff.mp hliteral
      exact .float
    case isFalse =>
      obtain ⟨_, _, rfl⟩ := Option.map_eq_some_iff.mp hliteral
      exact .integer

theorem Atom.regular (h : Atom t e) : e.Regular := by
  cases h
  case number h => exact regular_of_number h
  all_goals constructor

theorem regular_addIndex (hbase : base.Regular) (hi : i.Regular) : (addIndex base i).Regular := by
  have hlast : ∀ e ∈ [i], e.Regular := by simpa
  cases hbase
  case index hbase hindex _ hindices =>
    exact .index hbase hindex (by simp) <| List.forall_mem_append.mpr ⟨hindices, hlast⟩
  all_goals exact .index (by constructor <;> assumption) rfl (by simp) hlast

theorem Derives.regular (h : Derives level n ts e) : e.Regular := by
  induction h
  case tighter ih => exact ih
  case binary ihl ihr | comparison ihl ihr => exact .binary ihl ihr
  case negate ih => exact .negate ih
  case negative h => exact regular_of_number h
  case not ih => exact .not ih
  case member => exact .member
  case index ih ihi => exact regular_addIndex ih ihi
  case call ih => exact .call <| List.forall_mem_map.mpr ih
  case atom h => exact h.regular
  case parens ih => exact ih
  case array hne _ _ _ ih => exact .array (by simpa using hne) <| List.forall_mem_map.mpr ih

theorem Listing.forall_mem {P : α → Prop} (h : Listing Form ts close as) (hform : ∀ {ts next a}, Form ts next a → P a) :
    ∀ a ∈ as, P a := by
  induction h
  case nil => simp
  case closed ha _ _ ih => exact List.forall_mem_cons.mpr ⟨hform ha, ih⟩
  case plain ha _ _ ih => exact List.forall_mem_cons.mpr ⟨hform ha, ih⟩

theorem DeclarationForm.regular (h : DeclarationForm g n ts next s) : s.RegularDeclaration := by
  cases h
  case declare htype _ _ _ => exact .declare htype.regular (by simp)
  case initialized htype _ _ he _ => exact .declare htype.regular (by simpa using he.regular)
  case label => exact .label

theorem StmtForm.regular (h : StmtForm g n Bodies ts next s)
    (hbodies : ∀ {ts close stmts}, Bodies ts close stmts → ∀ s ∈ stmts, s.Regular g.isVoid) : s.Regular g.isVoid := by
  cases h
  case declaration h => exact .declaration h.regular
  case goto => exact .goto
  case returning hvoid he _ => exact .returning hvoid he.regular
  case returningNone hvoid => exact .returningNone hvoid
  case branch htest _ hyes _ => exact .branch htest.regular (hbodies hyes)
  case branchElse htest _ hyes _ hno _ => exact .branchElse htest.regular (hbodies hyes) (hbodies hno)
  case loop htest _ hbody _ => exact .loop htest.regular (hbodies hbody)
  case call he hcall _ _ => exact .call he.regular hcall
  case assign htarget _ he _ => exact .assign htarget.regular he.regular

theorem BodyForm.regular (h : BodyForm g n ts close stmts) : ∀ s ∈ stmts, s.Regular g.isVoid := by
  induction n generalizing ts close stmts
  case zero => contradiction
  case succ ih => exact Listing.forall_mem h fun hs => hs.regular ih

theorem FormalForm.regular (h : FormalForm ts a) : a.type.Regular := by
  cases h
  case mk htype _ _ => exact htype.regular_with _

theorem MemberForm.regular (h : MemberForm ts next a) : a.type.Regular := by
  cases h
  case mk htype _ => exact htype.regular

theorem TopForm.regular {isRecord : String → Bool} (h : TopForm isRecord n ts next s) : s.RegularTop := by
  cases h
  case declaration h => exact .declaration h.regular
  case function hparts _ _ _ hresult _ hbody _ =>
    refine .function hresult.regular (List.forall_mem_map.mpr fun part hpart => (hparts part hpart).regular) ?_
    exact hbody.forall_mem fun hs => hs.regular BodyForm.regular
  case record hmembers _ => exact .record <| hmembers.forall_mem MemberForm.regular

-- At the end of the source there is nothing ahead.
theorem ahead_of_current_eof {stream : Stream} (hframed : stream.Framed) (heof : stream.current.kind = .eof) :
    stream.ahead = [] := by
  obtain ⟨behind, current, ahead⟩ := stream
  obtain rfl | ⟨ts, last, rfl⟩ := ahead.eq_nil_or_concat
  case inl => rfl
  case inr =>
    obtain ⟨us, u, hlist, -, hother⟩ := hframed
    have : (behind.reverse ++ current :: ts) ++ [last] = us ++ [u] := by simpa [Stream.toList] using hlist
    exact absurd heof <| hother current <| (List.append_inj' this rfl).1 ▸ by simp

theorem State.peek_of_current_eof {stream : Stream} (hframed : stream.Framed) (heof : stream.current.kind = .eof) :
    (State.ofStream stream).peek.kind = .eof := by
  have hpeek : (State.ofStream stream).peek = stream.ahead.headD stream.current := rfl
  rwa [hpeek, ahead_of_current_eof hframed heof]

-- From a stream that has come to its end nothing is read.
theorem read_of_current_eof {stream : Stream} (hframed : stream.Framed) (heof : stream.current.kind = .eof) :
    stream.read.1 = .ok ⟨[]⟩ := by
  have : program.Yields (State.ofStream stream) ⟨[]⟩ (State.ofStream stream) :=
    Rule.Rounds.nil.yields <| programRound_done.mpr ⟨State.peek_of_current_eof hframed heof, rfl, rfl⟩
  rw [Stream.read_eq, this]

-- Every program that is read has the shape.
theorem regular_of_read {stream : Stream} {p : Program} (hframed : stream.Framed) (h : stream.read.1 = .ok p) :
    p.Regular := by
  by_cases heof : stream.current.kind = .eof
  case pos =>
    obtain rfl : (⟨[]⟩ : Program) = p := Except.ok.inj <| (read_of_current_eof hframed heof).symm.trans h
    simp [Program.Regular]
  case neg =>
    obtain ⟨ts, eof, -, -, hlisting⟩ := listing_of_read hframed heof h
    exact hlisting.forall_mem TopForm.regular

-- The tokens of `func f() -> void while x return end end`.
def loopForever : Stream :=
  let line := "func f() -> void while x return end end"
  .ofTokens ⟨.head, "", .start, line⟩
    [⟨.keyword .funcWord, "func", ⟨1, 1⟩, line⟩, ⟨.identifier, "f", ⟨1, 6⟩, line⟩,
     ⟨.symbol .openParen, "(", ⟨1, 7⟩, line⟩, ⟨.symbol .closeParen, ")", ⟨1, 8⟩, line⟩,
     ⟨.symbol .arrow, "->", ⟨1, 10⟩, line⟩, ⟨.keyword .voidWord, "void", ⟨1, 13⟩, line⟩,
     ⟨.keyword .whileWord, "while", ⟨1, 18⟩, line⟩, ⟨.identifier, "x", ⟨1, 24⟩, line⟩,
     ⟨.keyword .returnWord, "return", ⟨1, 26⟩, line⟩, ⟨.keyword .endWord, "end", ⟨1, 33⟩, line⟩,
     ⟨.keyword .endWord, "end", ⟨1, 37⟩, line⟩, ⟨.eof, "", ⟨1, 40⟩, line⟩]

theorem regular_of_read_loopForever :
    loopForever.Framed ∧ ∃ p, loopForever.read.1 = .ok p ∧ p.Regular := by
  have hframed : loopForever.Framed := ⟨loopForever.toList.dropLast, _, rfl, rfl, by decide⟩
  exact ⟨hframed, _, rfl, regular_of_read hframed rfl⟩

end Grammar
end BasicFrontEnd
