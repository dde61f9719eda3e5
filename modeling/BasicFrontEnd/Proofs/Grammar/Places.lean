import BasicFrontEnd.Proofs.Grammar.Height
import BasicFrontEnd.Proofs.Token.Ascending
import Mathlib.Data.List.Chain

/-!
The places in a program follow the source. Main statement: `follows_source`.
-/

namespace BasicFrontEnd

-- What has a place in a program.
inductive Node
  | stmt (s : Stmt)
  | member (m : TypedName)
  | formal (f : TypedName)

namespace Node

def position : Node → Position
  | stmt s   => s.position
  | member m => m.position
  | formal f => f.position

def kindName : Node → String
  | stmt s   => s.kindName
  | member _ => "MemberDecl"
  | formal _ => "Formal"

def place (node : Node) : String × Position :=
  (node.kindName, node.position)

@[simp]
theorem place_stmt (s : Stmt) : (stmt s).place = (s.kindName, s.position) :=
  rfl

@[simp]
theorem place_member (m : TypedName) : (member m).place = ("MemberDecl", m.position) :=
  rfl

@[simp]
theorem place_formal (f : TypedName) : (formal f).place = ("Formal", f.position) :=
  rfl

-- A body with a statement in it.
def isFilled : Node → Bool
  | stmt (.block (_ :: _) _) => true
  | _                        => false

-- How what has a place stands to what comes right after it. A body with statements begins where the first of these
-- does, and that comes right after it; all else comes further on in the source.
def Precedes : Node → Node → Prop
  | stmt (.block (s :: _) p), next => next = stmt s ∧ p = s.position
  | node, next                     => node.position < next.position

theorem precedes_of_lt {node next : Node} (hnode : node.isFilled = false) (hlt : node.position < next.position) :
    node.Precedes next := by
  unfold Precedes
  split
  case h_1 => contradiction
  case h_2 => exact hlt

end Node

namespace Stmt

mutual

-- What has a place within a statement, each before its own parts. The body of a function is a block, too.
def parts : Stmt → List Node
  | .record _ members _                         => members.map .member
  | .function _ _ formals body bodyPosition _   =>
    formals.map .formal ++ .stmt (.block body bodyPosition) :: nodesOfAll body
  | .branch _ body otherwise _                  =>
    .stmt body :: body.parts ++
      match otherwise with
      | none   => []
      | some s => .stmt s :: s.parts
  | .loop _ body _                              => .stmt body :: body.parts
  | .block body _                               => nodesOfAll body
  | _                                           => []

def nodesOfAll : List Stmt → List Node
  | []      => []
  | s :: ss => .stmt s :: s.parts ++ nodesOfAll ss

end

def nodes (s : Stmt) : List Node :=
  .stmt s :: s.parts

theorem nodesOfAll_eq (ss : List Stmt) : nodesOfAll ss = ss.flatMap nodes := by
  induction ss
  case nil => rfl
  case cons ih => rw [nodesOfAll, ih, List.flatMap_cons, nodes]

mutual

theorem places_eq (s : Stmt) : s.places = s.nodes.map Node.place := by
  match s with
  | .record _ members _                        => simp [places, nodes, parts, kindName, position]
  | .function _ _ formals body _ _             => simp [places, nodes, parts, kindName, position, placesOfAll_eq body]
  | .branch _ body none _                      => simp [places, nodes, parts, kindName, position, places_eq body]
  | .branch _ body (some no) _                 =>
    simp [places, nodes, parts, kindName, position, places_eq body, places_eq no]
  | .loop _ body _                             => simp [places, nodes, parts, kindName, position, places_eq body]
  | .block body _                              => simp [places, nodes, parts, kindName, position, placesOfAll_eq body]
  | .declare .. | .label .. | .goto .. | .returning .. | .expression .. => rfl

theorem placesOfAll_eq (ss : List Stmt) : placesOfAll ss = (nodesOfAll ss).map Node.place := by
  match ss with
  | [] => rfl
  | s :: ss => simp [placesOfAll, nodesOfAll, places_eq s, placesOfAll_eq ss, nodes]

end

end Stmt

-- All that has a place in a program, in order.
def Program.nodes (p : Program) : List Node :=
  Stmt.nodesOfAll p.body

open Grammar

-- The kinds of token that a body ends in front of.
def Kind.endsBody (k : Kind) : Prop :=
  k = .keyword .endWord ∨ k = .keyword .elseWord

-- The tokens begin with what writes the node, and the node has the place of the first of them. A body is written in
-- front of the token that ends it, and has the place of that one if nothing is in it; which token opens it, the form
-- of the statement around it tells.
inductive Node.At : Node → List Token → Prop
  | stmt : StmtForm g n (BodyForm g n) ts next s → At (.stmt s) (ts ++ next :: rest)
  | top : TopForm isRecord n ts next s → At (.stmt s) (ts ++ next :: rest)
  | body {ts : List Token} {close : Token} : Listing (StmtForm g n (BodyForm g n)) ts close stmts →
      close.kind.endsBody → At (.stmt (.block stmts (ts.headD close).position)) (ts ++ close :: rest)
  | member : MemberForm ts next m → At (.member m) (ts ++ next :: rest)
  | formal : FormalForm ts f → At (.formal f) (ts ++ rest)

namespace Grammar

theorem DeclarationForm.position_eq (h : DeclarationForm g n (t :: ts) next s) : s.position = t.position := by
  cases h <;> rfl

theorem StmtForm.position_eq (h : StmtForm g n Bodies (t :: ts) next s) : s.position = t.position := by
  cases h
  case declaration h => exact h.position_eq
  all_goals rfl

theorem TopForm.position_eq (h : TopForm isRecord n (t :: ts) next s) : s.position = t.position := by
  cases h
  case declaration h => exact h.position_eq
  all_goals rfl

theorem MemberForm.position_eq (h : MemberForm (t :: ts) next m) : m.position = t.position := by
  cases h
  rfl

theorem FormalForm.position_eq (h : FormalForm (t :: ts) f) : f.position = t.position := by
  cases h
  rfl

end Grammar

theorem Node.At.position_eq {node : Node} (h : node.At (t :: ts)) : node.position = t.position := by
  generalize hts : t :: ts = us at h
  cases h
  case stmt h =>
    obtain ⟨_, _, rfl, -⟩ := h.exists_head
    cases hts
    exact h.position_eq
  case top h =>
    obtain ⟨_, _, rfl, -⟩ := h.exists_head
    cases hts
    exact h.position_eq
  case body ts close _ _ =>
    cases ts <;> cases hts <;> rfl
  case member h =>
    obtain ⟨_, _, rfl, -⟩ := h.exists_head
    cases hts
    exact h.position_eq
  case formal h =>
    obtain ⟨_, _, rfl, -⟩ := h.exists_head
    cases hts
    exact h.position_eq

-- The nodes stand in the tokens one behind the other, in front of the rest: each is written from one of the tokens
-- on, and no two from the same one, but for a body and the first statement in it.
inductive Laid (rest : List Token) : List Token → List Node → Prop
  | nil  : Laid rest ts []
  | skip {t : Token} {ts : List Token} {nodes : List Node} : Laid rest ts nodes → Laid rest (t :: ts) nodes
  | here {node : Node} {t : Token} {ts : List Token} {nodes : List Node} :
      node.At (t :: ts ++ rest) → node.isFilled = false → Laid rest ts nodes → Laid rest (t :: ts) (node :: nodes)
  | body {t : Token} {ts : List Token} {nodes : List Node} :
      (Node.stmt (.block (s :: ss) p)).At (t :: ts ++ rest) → (Node.stmt s).At (t :: ts ++ rest) →
      Laid rest (t :: ts) (.stmt s :: nodes) → Laid rest (t :: ts) (.stmt (.block (s :: ss) p) :: .stmt s :: nodes)

namespace Laid

variable {rest ts us : List Token} {nodes nodes' : List Node}

theorem skips (ts : List Token) (h : Laid rest us nodes) : Laid rest (ts ++ us) nodes := by
  induction ts
  case nil => exact h
  case cons ih => exact .skip ih

theorem append (h : Laid (us ++ rest) ts nodes) (h' : Laid rest us nodes') :
    Laid rest (ts ++ us) (nodes ++ nodes') := by
  induction h
  case nil => exact h'.skips _
  case skip ih => exact .skip ih
  case here hat hfilled _ ih => exact .here (by simpa using hat) hfilled ih
  case body hat hfirst _ ih => exact .body (by simpa using hat) (by simpa using hfirst) ih

theorem snoc (h : Laid (t :: rest) ts nodes) : Laid rest (ts ++ [t]) nodes := by
  have hlonger : Laid rest (ts ++ [t]) (nodes ++ []) := append h .nil
  rwa [List.append_nil] at hlonger

theorem exists_suffix (h : Laid rest ts nodes) (hnode : node ∈ nodes) :
    ∃ t us, t ∈ ts ∧ t :: us <:+ ts ++ rest ∧ node.At (t :: us) := by
  induction h
  case nil => contradiction
  case skip t _ _ _ ih =>
    obtain ⟨u, us, hu, hsuffix, hat⟩ := ih hnode
    exact ⟨u, us, .tail _ hu, hsuffix.trans (List.suffix_cons t _), hat⟩
  case here t _ _ hat _ _ ih =>
    obtain rfl | hnode := List.mem_cons.mp hnode
    case inl => exact ⟨t, _, .head _, List.suffix_rfl, hat⟩
    case inr =>
      obtain ⟨u, us, hu, hsuffix, hat⟩ := ih hnode
      exact ⟨u, us, .tail _ hu, hsuffix.trans (List.suffix_cons t _), hat⟩
  case body t _ _ hat _ _ ih =>
    obtain rfl | hnode := List.mem_cons.mp hnode
    case inl => exact ⟨t, _, .head _, List.suffix_rfl, hat⟩
    case inr => exact ih hnode

theorem isChain (h : Laid rest ts nodes) (hts : ts.Pairwise (·.position < ·.position)) :
    nodes.IsChain Node.Precedes := by
  induction h
  case nil => exact .nil
  case skip ih => exact ih (List.pairwise_cons.mp hts).2
  case here hat hfilled hrest ih =>
    obtain ⟨hfirst, hts⟩ := List.pairwise_cons.mp hts
    refine List.isChain_cons.mpr ⟨fun next hnext => ?_, ih hts⟩
    obtain ⟨u, _, hu, -, hat'⟩ := hrest.exists_suffix (List.mem_of_mem_head? hnext)
    exact Node.precedes_of_lt hfilled <| hat.position_eq ▸ hat'.position_eq ▸ hfirst u hu
  case body hat hfirst _ ih =>
    exact List.isChain_cons_cons.mpr ⟨⟨rfl, hat.position_eq.trans hfirst.position_eq.symm⟩, ih hts⟩

end Laid

namespace Grammar

section Forms

variable {g : Setting} {isRecord : String → Bool} {Form : List Token → Token → α → Prop}

theorem Listing.laid {nodesOf : α → List Node} (h : Listing Form ts close as)
    (hform : ∀ {ts next a} rest, Form ts next a → Laid (next :: rest) ts (nodesOf a)) (rest : List Token) :
    Laid (close :: rest) ts (as.flatMap nodesOf) := by
  induction h
  case nil => exact .nil
  case closed ha _ _ ih => exact (hform _ ha).append (.skip ih)
  case plain us close _ ha _ _ ih =>
    obtain ⟨more, hmore⟩ := exists_append_cons us close rest
    have hitem := hform more ha
    exact (hmore ▸ hitem).append ih

-- The first of the items begins where the listing does.
theorem Listing.exists_first (h : Listing Form ts close (a :: as)) (rest : List Token) :
    ∃ us next more, ts ++ close :: rest = us ++ next :: more ∧ Form us next a := by
  cases h
  case closed _ ha _ => exact ⟨_, _, _, by rw [List.append_assoc, List.cons_append], ha⟩
  case plain us vs _ ha _ =>
    obtain ⟨more, hmore⟩ := exists_append_cons vs close rest
    exact ⟨us, _, more, by rw [List.append_assoc, hmore], ha⟩

-- A body stands in front of the token that ends it, and from that token on if nothing is in it.
theorem Listing.laid_body (h : Listing (StmtForm g n (BodyForm g n)) ts close stmts) (hclose : close.kind.endsBody)
    (hstmt : ∀ {ts next s} rest, StmtForm g n (BodyForm g n) ts next s → Laid (next :: rest) ts s.nodes)
    (rest : List Token) :
    Laid rest (ts ++ [close]) (.stmt (.block stmts (ts.headD close).position) :: Stmt.nodesOfAll stmts) := by
  have hat : (Node.stmt (.block stmts (ts.headD close).position)).At (ts ++ close :: rest) := .body h hclose
  cases stmts
  case nil =>
    obtain rfl : ts = [] := by cases h; rfl
    exact .here hat rfl .nil
  case cons s ss =>
    obtain ⟨us, next, more, hsplit, hs⟩ := h.exists_first rest
    have hfirst : (Node.stmt s).At (ts ++ close :: rest) := hsplit ▸ .stmt hs
    have hlaid : Laid rest (ts ++ [close]) (Stmt.nodesOfAll (s :: ss)) :=
      Stmt.nodesOfAll_eq _ ▸ (h.laid hstmt rest).snoc
    obtain ⟨vs, hts⟩ := exists_append_cons ts close []
    have hts' : ts ++ close :: rest = ts.headD close :: vs ++ rest := by
      rw [← hts, List.append_assoc, List.singleton_append]
    rw [hts] at hlaid ⊢
    exact .body (hts' ▸ hat) (hts' ▸ hfirst) hlaid

theorem DeclarationForm.laid (h : DeclarationForm g n ts next s) (hat : (Node.stmt s).At (ts ++ next :: rest)) :
    Laid (next :: rest) ts s.nodes := by
  cases h <;> exact .here hat rfl .nil

theorem StmtForm.laid (h : StmtForm g n (BodyForm g n) ts next s)
    (hbodies : ∀ {ts close stmts} rest, BodyForm g n ts close stmts → close.kind.endsBody →
      Laid rest (ts ++ [close]) (.stmt (.block stmts (ts.headD close).position) :: Stmt.nodesOfAll stmts))
    (rest : List Token) : Laid (next :: rest) ts s.nodes := by
  have hat : (Node.stmt s).At (ts ++ next :: rest) := .stmt h
  cases h
  case declaration h => exact h.laid hat
  case branch hyes hend =>
    have hbody := hbodies (next :: rest) hyes (.inl hend)
    refine .here hat rfl <| .skips _ <| .skip ?_
    rw [Stmt.parts, List.append_nil]
    exact hbody
  case branchElse hyes helse hno hend =>
    have hboth := (hbodies _ hyes (.inr helse)).append (hbodies (next :: rest) hno (.inl hend))
    rw [← List.append_cons] at hboth
    exact .here hat rfl <| .skips _ <| .skip hboth
  case loop hbody hend => exact .here hat rfl <| .skips _ <| hbodies (next :: rest) hbody (.inl hend)
  all_goals exact .here hat rfl .nil

theorem BodyForm.laid (h : BodyForm g n ts close stmts) (hclose : close.kind.endsBody) (rest : List Token) :
    Laid rest (ts ++ [close]) (.stmt (.block stmts (ts.headD close).position) :: Stmt.nodesOfAll stmts) := by
  induction n generalizing ts close stmts rest
  case zero => contradiction
  case succ ih =>
    have hstmt {ts next s} (rest) (hs : StmtForm g _ (BodyForm g _) ts next s) : Laid (next :: rest) ts s.nodes :=
      hs.laid (fun rest hbody hclose => ih hbody hclose rest) rest
    exact Listing.laid_body h hclose hstmt rest

theorem FormalForm.laid (h : FormalForm ts f) (rest : List Token) : Laid rest ts [.formal f] := by
  have hat : (Node.formal f).At (ts ++ rest) := .formal h
  obtain ⟨t, us, rfl, -⟩ := h.exists_head
  exact .here hat rfl .nil

theorem MemberForm.laid (h : MemberForm ts next m) (rest : List Token) : Laid (next :: rest) ts [.member m] := by
  have hat : (Node.member m).At (ts ++ next :: rest) := .member h
  obtain ⟨t, us, rfl, -⟩ := h.exists_head
  exact .here hat rfl .nil

theorem Separated.laid {parts : List (List Token × TypedName)} (h : Separated (parts.map Prod.fst) ts)
    (hparts : ∀ part ∈ parts, FormalForm part.1 part.2) (rest : List Token) :
    Laid rest ts ((parts.map Prod.snd).map .formal) := by
  generalize hpieces : parts.map Prod.fst = pieces at h
  induction h generalizing parts
  case none =>
    obtain rfl := List.map_eq_nil_iff.mp hpieces
    exact .nil
  case one =>
    obtain ⟨part, rfl, rfl⟩ := List.map_eq_singleton_iff.mp hpieces
    exact (hparts part (.head _)).laid rest
  case more hcomma h ih =>
    obtain ⟨part, parts, rfl, rfl, hmore⟩ := List.map_eq_cons_iff.mp hpieces
    obtain ⟨hpart, hparts⟩ := List.forall_mem_cons.mp hparts
    exact (hpart.laid _).append <| .skip <| ih hparts hmore

theorem TopForm.laid (h : TopForm isRecord n ts next s) (rest : List Token) : Laid (next :: rest) ts s.nodes := by
  have hat : (Node.stmt s).At (ts ++ next :: rest) := .top h
  cases h
  case declaration h => exact h.laid hat
  case function hparts hsep _ _ _ _ hbody hend =>
    have hstmts := hbody.laid_body (.inl hend)
      (fun rest hs => hs.laid (fun rest hbody hclose => hbody.laid hclose rest) rest) (next :: rest)
    refine .here hat rfl <| .skip <| .skip ?_
    exact (Separated.laid hsep hparts _).append <| .skip <| .skip <| .skips _ hstmts
  case record hmembers _ =>
    have hlaid := hmembers.laid (fun rest hm => hm.laid rest) (next :: rest)
    rw [← List.map_eq_flatMap] at hlaid
    exact .here hat rfl <| .skip hlaid.snoc

end Forms

end Grammar

theorem Source.exists_read_of_parse {s : Source} {p : Program} (h : s.parse = .ok p) :
    ∃ stream, s.tokens = .ok stream ∧ stream.read.1 = .ok p := by
  unfold Source.parse at h
  cases htokens : s.tokens <;> rw [htokens] at h
  case error => contradiction
  case ok stream => exact ⟨stream, rfl, h⟩

-- The places in a program that is read from a source are those of tokens: each node is written from its token on, a
-- body from the first token behind what opens it. In order, each comes further on in the source than the one before
-- it, but that a body with statements begins where the first of these does.
theorem Program.follows_source {s : Source} {p : Program} (h : s.parse = .ok p) :
    ∃ stream, s.tokens = .ok stream ∧ p.places = p.nodes.map Node.place ∧ p.nodes.IsChain Node.Precedes ∧
      ∀ node ∈ p.nodes, ∃ t ts, t :: ts <:+ stream.ahead ∧ node.At (t :: ts) ∧ node.position = t.position := by
  obtain ⟨stream, htokens, hread⟩ := s.exists_read_of_parse h
  obtain ⟨hframed, hbefore⟩ := Lexical.framed_of_tokens htokens
  obtain ⟨ts, eof, hahead, -, hlisting⟩ := listing_of_read hframed hbefore hread
  have hlaid : Laid [eof] ts p.nodes := by
    rw [Program.nodes, Stmt.nodesOfAll_eq]
    exact hlisting.laid (fun rest hs => hs.laid rest) []
  have hascending := Lexical.ascending_tokens htokens
  rw [hahead, List.dropLast_concat] at hascending
  refine ⟨stream, htokens, Stmt.placesOfAll_eq p.body, hlaid.isChain hascending, fun node hnode => ?_⟩
  obtain ⟨t, us, -, hsuffix, hat⟩ := hlaid.exists_suffix hnode
  exact ⟨t, us, hahead ▸ hsuffix, hat, hat.position_eq⟩

-- A record, and a function with a body that has statements and one that has none.
def fork : Source :=
  .ofText "struct r n: int end\nfunc f(int k) -> int\n  if k < 1 then return 1 else end\n  return 2\nend"

theorem Program.follows_source_fork :
    ∃ p stream, fork.parse = .ok p ∧ fork.tokens = .ok stream ∧
      p.nodes.map Node.place =
        [("StructDecl", ⟨1, 1⟩), ("MemberDecl", ⟨1, 10⟩), ("FuncDecl", ⟨2, 1⟩), ("Formal", ⟨2, 8⟩),
         ("BlockStmt", ⟨3, 3⟩), ("IfStmt", ⟨3, 3⟩), ("BlockStmt", ⟨3, 17⟩), ("ReturnStmt", ⟨3, 17⟩),
         ("BlockStmt", ⟨3, 31⟩), ("ReturnStmt", ⟨4, 3⟩)] ∧
      p.nodes.IsChain Node.Precedes ∧ ∀ node ∈ p.nodes, ∃ t ∈ stream.ahead, node.position = t.position := by
  have hplaces : (fork.parse.toOption.map Program.places) = some
      [("StructDecl", ⟨1, 1⟩), ("MemberDecl", ⟨1, 10⟩), ("FuncDecl", ⟨2, 1⟩), ("Formal", ⟨2, 8⟩),
       ("BlockStmt", ⟨3, 3⟩), ("IfStmt", ⟨3, 3⟩), ("BlockStmt", ⟨3, 17⟩), ("ReturnStmt", ⟨3, 17⟩),
       ("BlockStmt", ⟨3, 31⟩), ("ReturnStmt", ⟨4, 3⟩)] := by
    decide +kernel
  cases h : fork.parse <;> rw [h] at hplaces
  case error => contradiction
  case ok p =>
    obtain ⟨stream, htokens, hnodes, hchain, hat⟩ := Program.follows_source h
    refine ⟨p, stream, rfl, htokens, hnodes ▸ Option.some.inj hplaces, hchain, fun node hnode => ?_⟩
    obtain ⟨t, ts, hsuffix, -, hposition⟩ := hat node hnode
    exact ⟨t, hsuffix.subset (.head _), hposition⟩

end BasicFrontEnd
