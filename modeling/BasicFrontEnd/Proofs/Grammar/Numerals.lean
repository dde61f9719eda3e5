import BasicFrontEnd.Proofs.Grammar.Failing
import BasicFrontEnd.Proofs.Grammar.Formed
import BasicFrontEnd.Proofs.Grammar.Integers

/-!
Integers in expressions. A number has a place in the expression that it is in, together with the minus that belongs to
it (`Derives.numbered`). In such a place every integer is read exactly or is refused at its token, and whether a minus
in front belongs to it is told by the tokens before. Main statement: `integer_in_context`.
-/

namespace BasicFrontEnd.Grammar

open Rule State
open BasicFrontEnd.Expr (Context)

variable {s : State} {d : Diagnostic} {level : BindingLevel} {n : Nat} {us vs ts front hole rest : List Token}
  {t t₀ : Token} {negative : Bool} {c : Context} {e : Expr}

section Numbers

-- What writes a number: its token, and before it the minus that belongs to it.
inductive Numeral (t : Token) : Bool → List Token → Prop
  | plain  : Numeral t false [t]
  | signed : minus.kind = .symbol .minus → Numeral t true [minus, t]

-- The level of the holes of an expression of the level: what is primary is taken for a suffixed expression.
def BindingLevel.ofHole : BindingLevel → BindingLevel
  | primary => suffixed
  | level   => level

theorem BindingLevel.ofHole_level (o : Operator) :
    o.level.ofHole = o.level ∧ o.level.tighter.ofHole = o.level.tighter := by
  cases o <;> decide

-- The number token between `us` and `vs` has a place in the expression, perhaps with the last of the tokens before it.
inductive Numbered (t : Token) (level : BindingLevel) (n : Nat) (us vs : List Token) : Expr → Prop
  | intro {negative : Bool} {literal : Expr} {front hole : List Token} {c : Context} :
      us ++ [t] = front ++ hole → Numeral t negative hole → number t negative = .ok literal →
      Within hole level.ofHole n front vs c → Numbered t level n us vs (c.plug literal)

theorem ne_index_of_number (h : number t negative = .ok e) : ∀ base indices, e ≠ .index base indices := by
  obtain ⟨i, rfl⟩ | ⟨x, rfl⟩ := exists_literal_of_number h <;> exact nofun

theorem Numbered.of_numeral (h : Numeral t negative (us ++ [t])) (hnumber : number t negative = .ok e)
    (hlevel : level.ofHole = .suffixed) : Numbered t level n us [] e := by
  have hwithin : Within (us ++ [t]) level.ofHole n [] [] .hole := hlevel ▸ .hole
  exact .intro (List.nil_append _).symm h hnumber hwithin

theorem Numbered.ne_identifier (h : Numbered t level n us vs e) : e ≠ .identifier name := by
  obtain ⟨-, -, hnumber, -⟩ := h
  refine Context.plug_ne_identifier ?_ name
  obtain ⟨i, rfl⟩ | ⟨x, rfl⟩ := exists_literal_of_number hnumber <;> exact nofun

theorem Numbered.extend {f : Context → Context} {g : Expr → Expr} (h : Numbered t level n us vs e) (ts : List Token)
    (hwithin : ∀ {hole front c}, us ++ [t] = front ++ hole → Within hole level.ofHole n front vs c →
      Within hole level'.ofHole n' (ts ++ front) vs' (f c))
    (hplug : ∀ {c x}, (∀ base indices, x ≠ .index base indices) → (f c).plug x = g (c.plug x)) :
    Numbered t level' n' (ts ++ us) vs' (g e) := by
  obtain ⟨heq, hnumeral, hnumber, h⟩ := h
  rw [← hplug (ne_index_of_number hnumber)]
  exact .intro (by rw [List.append_assoc, heq, List.append_assoc]) hnumeral hnumber (hwithin heq h)

-- Of a list that is split at two members, the one comes first or the other.
theorem append_cons_eq_append_cons {α : Type} {xs ys us vs : List α} {x u : α} (h : xs ++ x :: ys = us ++ u :: vs)
    (hne : x ≠ u) :
    (∃ ws, xs = us ++ u :: ws ∧ vs = ws ++ x :: ys) ∨ ∃ ws, us = xs ++ x :: ws ∧ ys = ws ++ u :: vs := by
  obtain ⟨ws, rfl, hws⟩ | ⟨ws, rfl, hws⟩ := List.append_eq_append_iff.mp h
  case inl =>
    obtain _ | ⟨w, ws⟩ := ws
    case nil => exact absurd (List.cons.inj hws).1 hne
    case cons =>
      obtain ⟨rfl, rfl⟩ := List.cons.inj hws
      exact .inr ⟨ws, rfl, rfl⟩
  case inr =>
    obtain _ | ⟨w, ws⟩ := ws
    case nil => exact absurd (List.cons.inj hws).1.symm hne
    case cons =>
      obtain ⟨rfl, rfl⟩ := List.cons.inj hws
      exact .inl ⟨ws, rfl, rfl⟩

theorem eq_of_singleton_eq_append_cons {α : Type} {us vs : List α} {x u : α} (h : [x] = us ++ u :: vs) :
    us = [] ∧ u = x ∧ vs = [] := by
  obtain _ | ⟨_, us⟩ := us
  case nil =>
    obtain ⟨rfl, rfl⟩ := List.cons.inj h
    exact ⟨rfl, rfl, rfl⟩
  case cons => simp at h

theorem exists_of_cons_eq_append_cons {α : Type} {ys us vs : List α} {x u : α} (h : x :: ys = us ++ u :: vs)
    (hne : x ≠ u) : ∃ ws, us = x :: ws ∧ ys = ws ++ u :: vs := by
  obtain ⟨ws, hnil, -⟩ | hws := append_cons_eq_append_cons (show [] ++ x :: ys = us ++ u :: vs from h) hne
  case inl => simp at hnil
  case inr => exact hws

theorem exists_of_concat_eq_append_cons {α : Type} {xs us vs : List α} {y u : α} (h : xs ++ [y] = us ++ u :: vs)
    (hne : y ≠ u) : ∃ ws, vs = ws ++ [y] ∧ xs = us ++ u :: ws := by
  obtain ⟨ws, hxs, hvs⟩ | ⟨_, -, hnil⟩ := append_cons_eq_append_cons h hne
  case inl => exact ⟨ws, hvs, hxs⟩
  case inr => simp at hnil

-- A member of a bracketed list that is no bracket is between the brackets.
theorem exists_between_of_brackets {α : Type} {xs us vs : List α} {x y u : α} (h : x :: (xs ++ [y]) = us ++ u :: vs)
    (hx : x ≠ u) (hy : y ≠ u) : ∃ us' vs', us = x :: us' ∧ vs = vs' ++ [y] ∧ xs = us' ++ u :: vs' := by
  obtain ⟨us', rfl, hrest⟩ := exists_of_cons_eq_append_cons h hx
  obtain ⟨vs', rfl, rfl⟩ := exists_of_concat_eq_append_cons hrest hy
  exact ⟨us', vs', rfl, rfl, rfl⟩

theorem Leading.cons (h : Leading n front before) (he : Derives .disjunction n ts e)
    (hcomma : comma.kind = .symbol .comma) : Leading n (ts ++ comma :: front) (e :: before) := by
  obtain _ | ⟨hlist, hne, hcomma'⟩ := h
  case none => exact .some (.one he) (List.cons_ne_nil _ _) hcomma
  case some =>
    rw [← List.cons_append, ← List.append_assoc]
    exact .some ((Lists.one he).append (List.cons_ne_nil _ _) hcomma hlist hne) (List.cons_ne_nil _ _) hcomma'

-- A token of a list that is no comma is one of an item.
theorem Separated.exists_between {parts : List (List Token × Expr)}
    (hsep : Separated (parts.map Prod.fst) (us ++ t :: vs)) (ht : t.kind ≠ .symbol .comma)
    (hparts : ∀ part ∈ parts, Derives .disjunction n part.1 part.2) :
    ∃ part ∈ parts, ∃ front us' vs' back before after, Leading n front before ∧ Trailing n back after ∧
      us = front ++ us' ∧ vs = vs' ++ back ∧ part.1 = us' ++ t :: vs' ∧
      parts.map Prod.snd = before ++ part.2 :: after := by
  induction parts generalizing us
  case nil =>
    generalize hts : us ++ t :: vs = ts at hsep
    cases hsep
    simp at hts
  case cons part parts ih =>
    rw [List.forall_mem_cons] at hparts
    generalize hts : us ++ t :: vs = ts at hsep
    cases parts
    case nil =>
      obtain _ | _ := hsep
      exact ⟨part, List.mem_cons_self, [], us, vs, [], [], [], .none, .none, rfl, (List.append_nil vs).symm, hts.symm,
        rfl⟩
    case cons next parts =>
      obtain _ | _ | ⟨hcomma, hrest⟩ := hsep
      obtain ⟨ws, hpart, rfl⟩ | ⟨ws, rfl, hws⟩ :=
        append_cons_eq_append_cons hts.symm fun heq => ht (heq ▸ hcomma)
      case inl =>
        have hback : Trailing n (_ :: _) ((next :: parts).map Prod.snd) :=
          .some ⟨next :: parts, rfl, hparts.2, hrest⟩ (List.cons_ne_nil _ _) hcomma
        exact ⟨part, List.mem_cons_self, [], us, ws, _, [], _, .none, hback, rfl, rfl, hpart, rfl⟩
      case inr =>
        obtain ⟨part', hmem, front, us', vs', back, before, after, hfront, hback, rfl, rfl, hpart', hes⟩ :=
          ih (hws ▸ hrest) hparts.2
        refine ⟨part', List.mem_cons_of_mem part hmem, _, us', vs', back, part.2 :: before, after,
          hfront.cons hparts.1 hcomma, hback, by simp, rfl, hpart', ?_⟩
        rw [List.map_cons, hes, List.cons_append]

theorem Within.loosen (h : Within hole level.tighter.ofHole n us vs c) : Within hole level.ofHole n us vs c := by
  cases level
  case suffixed | primary => exact h
  all_goals exact .tighter (by decide) h

-- The number is in one of the operands.
theorem Numbered.operands {ls rs : List Token} {m : Token} {o : Operator} {left right : Expr}
    {level' level'' : BindingLevel} (hts : us ++ t :: vs = ls ++ m :: rs) (hne : m ≠ t)
    (hleft : ∀ {us vs}, us ++ t :: vs = ls → Numbered t level' n us vs left)
    (hright : ∀ {us vs}, us ++ t :: vs = rs → Numbered t level'' n us vs right)
    (hleft' : ∀ {hole front ws c}, Within hole level'.ofHole n front ws c →
      Within hole level.ofHole n front (ws ++ m :: rs) (.left o c right))
    (hright' : ∀ {hole front c}, Within hole level''.ofHole n front vs c →
      Within hole level.ofHole n (ls ++ m :: front) vs (.right o left c)) :
    Numbered t level n us vs (.binary o left right) := by
  obtain ⟨ws, hls, rfl⟩ | ⟨ws, rfl, hrs⟩ := append_cons_eq_append_cons hts.symm hne
  case inl =>
    exact (hleft hls.symm).extend (f := (.left o · right)) (g := (.binary o · right)) [] (fun _ h => hleft' h)
      fun _ => rfl
  case inr =>
    rw [List.append_cons]
    refine (hright hrs.symm).extend (f := .right o left) (g := .binary o left) _ (fun _ h => ?_) fun _ => rfl
    rw [← List.append_cons]
    exact hright' h

-- The number is in one of the items of a list.
theorem Numbered.item {parts : List (List Token × Expr)} {closing : Token}
    {f : List Expr → Context → List Expr → Context} {g : List Expr → Expr}
    (hsep : Separated (parts.map Prod.fst) (us ++ t :: vs)) (ht : t.kind ≠ .symbol .comma)
    (hparts : ∀ part ∈ parts, Derives .disjunction n part.1 part.2)
    (ih : ∀ part ∈ parts, ∀ {us vs}, us ++ t :: vs = part.1 → Numbered t .disjunction n us vs part.2)
    (hplug : ∀ {before c after x}, (f before c after).plug x = g (before ++ c.plug x :: after)) (ts : List Token)
    (hwithin : ∀ {hole front before us vs c back after}, Leading n front before →
      Within hole .disjunction n us vs c → Trailing n back after →
      Within hole level.ofHole n' (ts ++ (front ++ us)) (vs ++ back ++ [closing]) (f before c after)) :
    Numbered t level n' (ts ++ us) (vs ++ [closing]) (g (parts.map Prod.snd)) := by
  obtain ⟨part, hmem, front, us, vs, back, before, after, hfront, hback, rfl, rfl, hpart, hes⟩ :=
    hsep.exists_between ht hparts
  rw [hes, ← List.append_assoc]
  refine (ih part hmem hpart.symm).extend (f := (f before · after)) (g := fun e => g (before ++ e :: after)) _
    (fun _ h => ?_) fun _ => hplug
  rw [List.append_assoc]
  exact hwithin hfront h hback

theorem Derives.numbered (h : Derives level n (us ++ t :: vs) e) (ht : t.kind.isNumber = true) :
    Numbered t level n us vs e := by
  generalize hts : us ++ t :: vs = ts at h
  have hne {u : Token} (hu : u.kind.isNumber = false) : u ≠ t := by
    rintro rfl
    exact Bool.false_ne_true (hu.symm.trans ht)
  have hsymbol {u : Token} {s : Symbol} (hu : u.kind = .symbol s) : u ≠ t := hne (by rw [hu]; rfl)
  have hcomma : t.kind ≠ .symbol .comma := fun hkind => hsymbol hkind rfl
  have hoperator {u : Token} {o : Operator} (hu : u.kind = o.kind) : u ≠ t := hne (by rw [hu]; cases o <;> rfl)
  induction h generalizing us vs
  case tighter ih =>
    obtain ⟨heq, hnumeral, hnumber, hwithin⟩ := ih hts
    exact .intro heq hnumeral hnumber hwithin.loosen
  case binary o hkind ho hl hr ihl ihr =>
    obtain ⟨hlevel, htighter⟩ := BindingLevel.ofHole_level o
    refine .operands hts (hoperator hkind) ihl ihr (fun h => ?_) fun h => ?_
    · rw [hlevel] at h ⊢
      exact .left hkind ho h hr
    · rw [htighter] at h
      rw [hlevel]
      exact .right hkind ho hl h
  case comparison o hkind ho hl hr ihl ihr =>
    exact .operands hts (hoperator hkind) ihl ihr (.leftCompared hkind ho · hr) (.rightCompared hkind ho hl ·)
  case negate ts _ minus hminus hhead _ ih =>
    obtain ⟨ws, rfl, rfl⟩ := exists_of_cons_eq_append_cons hts.symm (hsymbol hminus)
    refine (ih rfl).extend (f := .negate) [minus] (fun {hole front c} heq h => ?_) fun _ => rfl
    have hhead' : ∀ t ∈ (front ++ hole).head?, t.kind.isNumber = false := by
      rw [← heq]
      cases ws <;> exact hhead
    exact .negate hminus hhead' h
  case negative hminus _ hnumber =>
    obtain ⟨ws, rfl, hdigits⟩ := exists_of_cons_eq_append_cons hts.symm (hsymbol hminus)
    obtain ⟨rfl, rfl, rfl⟩ := eq_of_singleton_eq_append_cons hdigits
    exact .of_numeral (.signed hminus) hnumber rfl
  case not hbang _ ih =>
    obtain ⟨ws, rfl, rfl⟩ := exists_of_cons_eq_append_cons hts.symm (hsymbol hbang)
    exact (ih rfl).extend [_] (fun _ h => .not hbang h) fun _ => rfl
  case member hdot hfield ih =>
    obtain ⟨ws, hrecord, rfl⟩ | ⟨ws, rfl, hfield'⟩ := append_cons_eq_append_cons hts.symm (hsymbol hdot)
    case inl => exact absurd rfl (ih hrecord.symm).ne_identifier
    case inr =>
      obtain ⟨-, rfl, -⟩ := eq_of_singleton_eq_append_cons hfield'
      rw [hfield] at ht
      contradiction
  case index hbase hopen hi hclose ih ihi =>
    obtain ⟨ws, hbase', rfl⟩ | ⟨ws, rfl, hindex⟩ := append_cons_eq_append_cons hts.symm (hsymbol hopen)
    case inl =>
      exact (ih hbase'.symm).extend (f := (·.addIndex _)) (g := (addIndex · _)) []
        (fun _ h => .base h hopen hi hclose) Context.plug_addIndex
    case inr =>
      obtain ⟨vs, rfl, rfl⟩ := exists_of_concat_eq_append_cons hindex (hsymbol hclose)
      rw [List.append_cons]
      refine (ihi rfl).extend (f := .atIndex _) (g := addIndex _) _ (fun _ h => ?_) fun _ => Context.plug_atIndex
      rw [← List.append_cons]
      exact .index hbase hopen h hclose
  case call parts hcallee hopen hparts hsep hclose ih ihparts =>
    obtain ⟨ws, hname, rfl⟩ | ⟨ws, rfl, harguments⟩ := append_cons_eq_append_cons hts.symm (hsymbol hopen)
    case inl => exact absurd rfl (ih hname.symm).ne_identifier
    case inr =>
      obtain ⟨vs, rfl, rfl⟩ := exists_of_concat_eq_append_cons harguments (hsymbol hclose)
      rw [List.append_cons]
      refine .item (f := .argument _) (g := .call _) hsep hcomma hparts ihparts rfl _ fun hfront h hback => ?_
      rw [← List.append_cons]
      exact .argument hcallee hopen hfront h hback hclose
  case atom h =>
    obtain ⟨rfl, rfl, rfl⟩ := eq_of_singleton_eq_append_cons hts.symm
    obtain h | h | h | h | h | ⟨-, hnumber⟩ := h
    case number => exact .of_numeral .plain hnumber rfl
    all_goals
      rw [h] at ht
      contradiction
  case parens hopen _ hclose ih =>
    obtain ⟨us, vs, rfl, rfl, rfl⟩ := exists_between_of_brackets hts.symm (hsymbol hopen) (hsymbol hclose)
    exact (ih rfl).extend (f := id) (g := id) [_] (fun _ h => .parens hopen h hclose) fun _ => rfl
  case array parts hopen _ hparts hsep hclose ih =>
    obtain ⟨us, vs, rfl, rfl, rfl⟩ := exists_between_of_brackets hts.symm (hsymbol hopen) (hsymbol hclose)
    refine .item (f := .element) (g := .array) hsep hcomma hparts ih rfl [_] fun hfront h hback => ?_
    rw [List.singleton_append]
    exact .element hopen hfront h hback hclose

end Numbers

namespace Numeral

theorem derives (h : Numeral t negative hole) (ht : t.kind.isNumber = true) (hnumber : number t negative = .ok e)
    (n : Nat) : Derives .suffixed n hole e := by
  cases h
  case plain => exact .tighter (.atom (.number ht hnumber))
  case signed hminus => exact .negative hminus ht hnumber

theorem exists_head (h : Numeral t negative hole) (ht : t.kind.isNumber = true) :
    ∃ u more, hole = u :: more ∧ u.kind.beginsExpr = true := by
  cases h
  case plain => exact ⟨t, [], rfl, Kind.beginsExpr_of_isNumber ht⟩
  case signed minus hminus => exact ⟨minus, [t], rfl, by rw [hminus]; rfl⟩

theorem breaks (h : Numeral t negative hole) (ht : t.kind.isNumber = true) (hnumber : number t negative = .error d)
    (n : Nat) : Breaks .suffixed n (hole ++ rest) d := by
  intro left s hs hopens hle hahead
  cases h
  case plain =>
    obtain ⟨rfl, -⟩ := hs.peek_eq hahead
    have hprimary : (primary (inner left)).Fails s d := Fails.primary_number ht hnumber
    have hother (symbol : Symbol) : s.peek.kind ≠ .symbol symbol := by
      intro hkind
      rw [hkind] at ht
      contradiction
    exact hprimary.operand (hother _) (hother _)
  case signed hminus =>
    obtain ⟨rfl, hnext, -, hahead, -⟩ := hs.next_of_ahead hahead (by simp [hminus]) hopens
    obtain ⟨rfl, -⟩ := hnext.peek_eq hahead
    exact Fails.operand_negative hminus ht hnumber

theorem of_append (h : Numeral t negative hole) (heq : us ++ [t] = front ++ hole) :
    (negative = false ∧ front = us ∧ hole = [t]) ∨
      ∃ minus, negative = true ∧ minus.kind = .symbol .minus ∧ us = front ++ [minus] ∧ hole = [minus, t] := by
  cases h
  case plain =>
    obtain ⟨rfl, -⟩ := List.append_inj' heq rfl
    exact .inl ⟨rfl, rfl, rfl⟩
  case signed minus hminus =>
    obtain ⟨rfl, -⟩ := List.append_inj' (heq.trans (List.append_cons ..)) rfl
    exact .inr ⟨minus, rfl, hminus, rfl, rfl⟩

-- Another number may stand in the place of the first, with the same sign.
theorem replace (h : Numeral t₀ negative hole) (ht₀ : t₀.kind.isNumber = true) (heq : us ++ [t₀] = front ++ hole)
    (t : Token) :
    ∃ hole', us ++ [t] = front ++ hole' ∧ Numeral t negative hole' ∧
      ∀ u ∈ hole'.head?, u.kind.isNumber = true → ∃ v ∈ hole.head?, v.kind.isNumber = true := by
  obtain ⟨rfl, rfl, rfl⟩ | ⟨minus, rfl, hminus, rfl, rfl⟩ := h.of_append heq
  case inl => exact ⟨[t], rfl, .plain, fun _ _ _ => ⟨t₀, rfl, ht₀⟩⟩
  case inr => exact ⟨[minus, t], (List.append_cons ..).symm, .signed hminus, fun u hu hnumber => ⟨u, hu, hnumber⟩⟩

end Numeral

-- The last of the tokens is a minus that belongs to a number behind it: no operand ends before it.
def folds (us : List Token) : Bool :=
  us.getLast?.any (·.kind = .symbol .minus) && us.dropLast.getLast?.all (!·.kind.endsOperand)

theorem folds_iff :
    folds us = true ↔
      ∃ ts m, us = ts ++ [m] ∧ m.kind = .symbol .minus ∧ ∀ u ∈ ts.getLast?, u.kind.endsOperand = false := by
  constructor
  case mp =>
    intro h
    obtain rfl | ⟨ts, m, rfl⟩ := us.eq_nil_or_concat'
    case inl => contradiction
    case inr => exact ⟨ts, m, rfl, by simpa [folds, Option.all_eq_true] using h⟩
  case mpr =>
    rintro ⟨ts, m, rfl, h⟩
    simpa [folds, Option.all_eq_true] using h

-- The tokens end in a complete expression, which may be an operand.
def EndsInExpr (ts : List Token) : Prop :=
  ∃ front us level n e, ts = front ++ us ∧ Derives level n us e

theorem EndsInExpr.exists_endsOperand (h : EndsInExpr ts) : ∃ u ∈ ts.getLast?, u.kind.endsOperand = true := by
  obtain ⟨front, us, level, n, e, rfl, he⟩ := h
  obtain ⟨us, u, rfl⟩ := us.eq_nil_or_concat'.resolve_left he.ne_nil
  exact ⟨u, by simp, he.endsOperand u (by simp)⟩

theorem EndsInExpr.of_subtracts {m : Token} (h : Subtracts (ts ++ [m]) c) : EndsInExpr ts := by
  obtain ⟨heq, hfirst, -⟩ := h
  obtain ⟨rfl, -⟩ := List.append_inj' heq rfl
  exact ⟨_, _, _, _, _, rfl, hfirst⟩

theorem folds_eq_false_of_endsInExpr {m : Token} (h : EndsInExpr ts) : folds (ts ++ [m]) = false := by
  rw [Bool.eq_false_iff]
  intro hfolds
  obtain ⟨ts', m', heq, -, hlast⟩ := folds_iff.mp hfolds
  obtain ⟨rfl, -⟩ := List.append_inj' heq rfl
  obtain ⟨u, hu, hends⟩ := h.exists_endsOperand
  exact Bool.false_ne_true <| (hlast u hu).symm.trans hends

-- A minus before the place of a number is the sign of the number or that of a subtraction.
theorem Numeral.folds_eq (h : Numeral t₀ negative hole) (ht₀ : t₀.kind.isNumber = true)
    (heq : us ++ [t₀] = front ++ hole) (hwithin : Within hole level n front vs c) :
    folds us = negative ∧ front = (if folds us then us.dropLast else us) ∧
      ∀ m ∈ us.getLast?, m.kind = .symbol .minus → folds us = false → Subtracts us c := by
  obtain ⟨rfl, rfl, rfl⟩ | ⟨minus, rfl, hminus, rfl, rfl⟩ := h.of_append heq
  case inl =>
    have hsubtracts (m : Token) (hlast : m ∈ front.getLast?) (hm : m.kind = .symbol .minus) : Subtracts front c :=
      hwithin.subtracts ⟨t₀, rfl, ht₀⟩ hm hlast
    have hfolds : folds front = false := by
      rw [Bool.eq_false_iff]
      intro hfolds
      obtain ⟨ts, m, rfl, hm, -⟩ := folds_iff.mp hfolds
      have hends : EndsInExpr ts := .of_subtracts (hsubtracts m (by simp) hm)
      exact absurd hfolds (by simp [folds_eq_false_of_endsInExpr hends])
    exact ⟨hfolds, by simp [hfolds], fun m hlast hm _ => hsubtracts m hlast hm⟩
  case inr =>
    have hfolds : folds (front ++ [minus]) = true := folds_iff.mpr ⟨front, minus, rfl, hminus, hwithin.awaits⟩
    exact ⟨hfolds, by simp [hfolds], by simp [hfolds]⟩

-- Where some number may stand, behind its sign or without one, so may an integer of any number of digits. If it fits
-- in 64 bits together with the sign, it is read as one literal, in the place in the tree that a name instead of sign
-- and digits has; otherwise reading fails at the digits. A minus is the sign if no expression ends before it, and
-- that of a subtraction if one does.
theorem integer_in_context (h : Derives .disjunction n (us ++ t₀ :: vs) e) (ht₀ : t₀.kind.isNumber = true) :
    ∃ c : Context,
      (∀ ts minus, us = ts ++ [minus] → minus.kind = .symbol .minus →
        (folds us = true ↔ ¬EndsInExpr ts) ∧ (folds us = false → Subtracts us c)) ∧
      (folds us = true → ∃ ts minus, us = ts ++ [minus] ∧ minus.kind = .symbol .minus) ∧
      (∀ x, x.kind = .identifier →
        Derives .disjunction n ((if folds us then us.dropLast else us) ++ x :: vs) (c.plug (.identifier x.value))) ∧
      ∀ t s, t.WritesInteger → s.Framed → s.Opens n →
        if t.magnitude ≤ greatestMagnitude (folds us) then
          ∃ i : Int64, i.toInt = signed (folds us) t.magnitude ∧
            ∀ next rest, s.ahead = us ++ t :: (vs ++ next :: rest) → BindingLevel.disjunction.Stops next.kind →
              expr.Takes s (c.plug (.integer i)) (next :: rest)
        else
          ∀ rest, s.ahead = us ++ t :: rest →
            expr.Fails s (t.fault (.badNumber (signedText (folds us) t.value))) := by
  obtain @⟨negative, literal, front, hole, c, heq, hnumeral, hnumber, hwithin⟩ := h.numbered ht₀
  obtain ⟨rfl, hfront, hsubtracts⟩ := hnumeral.folds_eq ht₀ heq hwithin
  refine ⟨c, ?minus, ?sign, fun x hx => ?name, fun t s ht hs hopens => ?integer⟩
  case minus =>
    rintro ts minus rfl hminus
    have hsubtracts := hsubtracts minus (by simp) hminus
    refine ⟨⟨fun hfolds hends => ?_, fun hends => ?_⟩, hsubtracts⟩
    · exact absurd hfolds (by simp [folds_eq_false_of_endsInExpr hends])
    · by_contra hfolds
      exact hends <| .of_subtracts <| hsubtracts <| Bool.eq_false_iff.mpr hfolds
  case sign =>
    intro hfolds
    obtain ⟨ts, minus, heq, hminus, -⟩ := folds_iff.mp hfolds
    exact ⟨ts, minus, heq, hminus⟩
  case name =>
    have hwithin' : Within [x] .disjunction n front vs c := hwithin.refill (by simp [hx, Kind.isNumber])
    have hname (n : Nat) : Derives .suffixed n [x] (.identifier x.value) := .tighter (.atom (.identifier hx))
    rw [← hfront]
    simpa using hwithin'.derives hname (by simp)
  case integer =>
    have hkind : t.kind.isNumber = true := by rw [ht.kind]; rfl
    obtain ⟨hole', heq', hnumeral', hhead⟩ := hnumeral.replace ht₀ heq t
    have hwithin' : Within hole' .disjunction n front vs c := hwithin.refill hhead
    have hnumber' := number_of_writesInteger ht (folds us)
    split at hnumber'
    case isTrue hle =>
      rw [if_pos hle]
      refine ⟨_, toInt_signed hle, fun next rest hahead hstops => ?_⟩
      have hderives := hwithin'.derives (hnumeral'.derives hkind hnumber') (ne_index_of_number hnumber')
      rw [← heq'] at hderives
      exact hderives.takes hs hopens (by simpa using hahead) hstops
    case isFalse hlt =>
      rw [if_neg hlt]
      intro rest hahead
      have hhole (n : Nat) : Breaks .suffixed n (hole' ++ rest) _ := hnumeral'.breaks hkind hnumber' n
      have hbreaks := hwithin'.breaks (hnumeral'.exists_head hkind) hhole
      rw [← List.append_assoc, ← heq', List.append_assoc] at hbreaks
      exact hbreaks.expr_fails hs hopens hahead

def differenceLine : String :=
  "a - 9223372036854775808"

def differenceToken (kind : Kind) (value : String) (column : Nat) : Token :=
  ⟨kind, value, ⟨1, column⟩, differenceLine⟩

-- The tokens of the line.
def difference : List Token :=
  [differenceToken .identifier "a" 1, differenceToken (.symbol .minus) "-" 3,
    differenceToken .integer "9223372036854775808" 5, differenceToken .eof "" 24]

def beforeTokens (ts : List Token) : State :=
  .ofStream <| .ofTokens ⟨.head, "", .start, ""⟩ ts

-- A name reads as itself.
theorem Derives.eq_identifier (h : Derives .disjunction maxNesting [t] e) (ht : t.kind = .identifier) :
    e = .identifier t.value := by
  have hname : Derives .disjunction maxNesting [t] (.identifier t.value) :=
    .tighter <| .tighter <| .tighter <| .tighter <| .tighter <| .tighter <| .tighter <| .atom <| .identifier ht
  have hhead : Kind.head ≠ .eof := by decide
  have hframed : (beforeTokens [t, differenceToken .eof "" 24]).Framed :=
    ⟨⟨[_, t], _, rfl, rfl, List.forall_mem_cons.mpr ⟨hhead, by simp [ht]⟩⟩, hhead⟩
  have hstops : BindingLevel.disjunction.Stops .eof := BindingLevel.stops_of_closes rfl
  exact (h.takes hframed (opens_ofStream _) rfl hstops).unique <| hname.takes hframed (opens_ofStream _) rfl hstops

-- The digits of the least integer are out of range behind a name and a minus, but not behind the minus alone.
theorem integer_in_context_difference :
    expr.Fails (beforeTokens difference) ⟨.badNumber "9223372036854775808", ⟨1, 5⟩, some differenceLine⟩ ∧
      ∃ rest, expr.Takes (beforeTokens difference.tail) (.integer Int64.minValue) rest := by
  have hdigits : (differenceToken .integer "9223372036854775808" 5).WritesInteger :=
    ⟨rfl, by decide, List.all_eq_true.mp (by decide)⟩
  have hname : Derives .sum maxNesting [differenceToken .identifier "a" 1] (.identifier "a") :=
    .tighter <| .tighter <| .tighter <| .tighter <| .atom <| .identifier rfl
  have hone : Derives .product maxNesting [differenceToken .integer "1" 5] _ :=
    .tighter <| .tighter <| .tighter <| .atom <| .number rfl rfl
  have hdifference : Derives Operator.subtract.level maxNesting _ _ :=
    .binary (t := differenceToken (.symbol .minus) "-" 3) rfl rfl hname hone
  have hsigned : Derives .disjunction maxNesting
      ([differenceToken (.symbol .minus) "-" 3] ++ differenceToken .integer "1" 5 :: []) (.integer (-1)) :=
    .tighter <| .tighter <| .tighter <| .tighter <| .tighter <| .tighter <| .negative rfl rfl rfl
  have hopens (ts : List Token) : (beforeTokens ts).Opens maxNesting := opens_ofStream _
  constructor
  case left =>
    have hwhole : Derives .disjunction maxNesting
        ([differenceToken .identifier "a" 1, differenceToken (.symbol .minus) "-" 3] ++
          differenceToken .integer "1" 5 :: []) _ := .tighter <| .tighter <| .tighter hdifference
    obtain ⟨c, -, -, -, hinteger⟩ := integer_in_context hwhole rfl
    have hframed : (beforeTokens difference).Framed := ⟨⟨[_, _, _, _], _, rfl, rfl, by decide⟩, by decide⟩
    have hfails := hinteger _ _ hdigits hframed (hopens _)
    rw [if_neg (by decide +kernel)] at hfails
    exact hfails _ rfl
  case right =>
    obtain ⟨c, -, -, hplace, hinteger⟩ := integer_in_context hsigned rfl
    have hframed : (beforeTokens difference.tail).Framed := ⟨⟨[_, _, _], _, rfl, rfl, by decide⟩, by decide⟩
    have htakes := hinteger _ _ hdigits hframed (hopens _)
    rw [if_pos (by decide +kernel)] at htakes
    obtain ⟨i, hi, htakes⟩ := htakes
    obtain rfl : i = Int64.minValue := Int64.toInt_inj.mp hi
    have hc : c = .hole := by
      have hplug := (hplace (differenceToken .identifier "x" 5) rfl).eq_identifier rfl
      cases c <;> first | rfl | contradiction
    subst hc
    exact ⟨_, htakes _ _ rfl (BindingLevel.stops_of_closes rfl)⟩

end BasicFrontEnd.Grammar
