import BasicFrontEnd.Proofs.Grammar.Sound
import Mathlib.Data.List.Basic

/-!
Expressions with a hole. `Within hole level n us vs c` says that tokens which stand for the hole make, between `us` and
`vs`, an expression of the level, which has the hole in the place that the context `c` leaves open. Main statements:
`Within.derives`, and `Within.subtracts`, on a minus right before the hole.
-/

namespace BasicFrontEnd

-- The kinds of token that end an operand.
def Kind.endsOperand : Kind → Bool
  | .identifier | .integer | .float | .string => true
  | .keyword .trueWord | .keyword .falseWord | .keyword .nilWord => true
  | .symbol .closeParen | .symbol .closeBracket | .symbol .closeCurly => true
  | _ => false

theorem Kind.endsOperand_of_isNumber {k : Kind} (h : k.isNumber = true) : k.endsOperand = true := by
  obtain rfl | rfl := isNumber_iff.mp h <;> rfl

theorem Operator.endsOperand_kind (o : Operator) : o.kind.endsOperand = false := by
  cases o <;> rfl

-- An expression in which one part is open.
inductive Expr.Context
  | hole
  | left (operator : Operator) (c : Context) (second : Expr)
  | right (operator : Operator) (first : Expr) (c : Context)
  | negate (c : Context)
  | not (c : Context)
  | argument (callee : String) (before : List Expr) (c : Context) (after : List Expr)
  | element (before : List Expr) (c : Context) (after : List Expr)
  | indexed (c : Context) (indices : List Expr)
  | index (base : Expr) (before : List Expr) (c : Context) (after : List Expr)

namespace Expr.Context

-- The expression that has `e` in the open place.
@[simp]
def plug : Context → Expr → Expr
  | .hole, e                           => e
  | .left operator c second, e         => .binary operator (c.plug e) second
  | .right operator first c, e         => .binary operator first (c.plug e)
  | .negate c, e                       => .negate (c.plug e)
  | .not c, e                          => .not (c.plug e)
  | .argument callee before c after, e => .call callee (before ++ c.plug e :: after)
  | .element before c after, e         => .array (before ++ c.plug e :: after)
  | .indexed c indices, e              => .index (c.plug e) indices
  | .index base before c after, e      => .index base (before ++ c.plug e :: after)

-- Another index, which is gathered with those before it.
def addIndex (c : Context) (i : Expr) : Context :=
  match c with
  | .indexed c indices         => .indexed c (indices ++ [i])
  | .index base before c after => .index base before c (after ++ [i])
  | c                          => .indexed c [i]

-- An open index.
def atIndex (base : Expr) (c : Context) : Context :=
  match base with
  | .index base indices => .index base indices c []
  | base                => .index base [] c []

theorem plug_addIndex {c : Context} {e i : Expr} (he : ∀ base indices, e ≠ .index base indices) :
    (c.addIndex i).plug e = Grammar.addIndex (c.plug e) i := by
  cases c
  case hole =>
    cases e
    case index base indices => exact absurd rfl (he base indices)
    all_goals rfl
  case index => simp [addIndex, plug, Grammar.addIndex]
  all_goals rfl

theorem plug_atIndex {base : Expr} {c : Context} {e : Expr} :
    (atIndex base c).plug e = Grammar.addIndex base (c.plug e) := by
  cases base <;> rfl

theorem plug_ne_identifier {c : Context} {e : Expr} (he : ∀ name, e ≠ .identifier name) (name : String) :
    c.plug e ≠ .identifier name := by
  cases c
  case hole => exact he name
  all_goals exact nofun

end Expr.Context

namespace Grammar

open BasicFrontEnd.Expr

-- Items in front of another one, with a comma behind each.
inductive Leading (n : Nat) : List Token → List Expr → Prop
  | none : Leading n [] []
  | some : Lists n ts es → es ≠ [] → comma.kind = .symbol .comma → Leading n (ts ++ [comma]) es

-- Items behind another one, with a comma before each.
inductive Trailing (n : Nat) : List Token → List Expr → Prop
  | none : Trailing n [] []
  | some : Lists n ts es → es ≠ [] → comma.kind = .symbol .comma → Trailing n (comma :: ts) es

-- The tokens `us` and `vs` make an expression of the level around the hole.
inductive Within (hole : List Token) : BindingLevel → Nat → List Token → List Token → Context → Prop
  | hole : Within hole .suffixed n [] [] .hole
  | tighter : level.rank < BindingLevel.suffixed.rank → Within hole level.tighter n us vs c →
      Within hole level n us vs c
  | left : t.kind = o.kind → o.isComparison = false → Within hole o.level n us vs c →
      Derives o.level.tighter n ts right → Within hole o.level n us (vs ++ t :: ts) (.left o c right)
  | right : t.kind = o.kind → o.isComparison = false → Derives o.level n ts left →
      Within hole o.level.tighter n us vs c → Within hole o.level n (ts ++ t :: us) vs (.right o left c)
  | leftCompared : t.kind = o.kind → o.isComparison = true → Within hole .sum n us vs c → Derives .sum n ts right →
      Within hole .comparison n us (vs ++ t :: ts) (.left o c right)
  | rightCompared : t.kind = o.kind → o.isComparison = true → Derives .sum n ts left → Within hole .sum n us vs c →
      Within hole .comparison n (ts ++ t :: us) vs (.right o left c)
  | negate : minus.kind = .symbol .minus → (∀ t ∈ (us ++ hole).head?, t.kind.isNumber = false) →
      Within hole .operand n us vs c → Within hole .operand (n + 1) (minus :: us) vs (.negate c)
  | not : bang.kind = .symbol .bang → Within hole .operand n us vs c →
      Within hole .operand (n + 1) (bang :: us) vs (.not c)
  | base : Within hole .suffixed (n + 1) us vs c → opening.kind = .symbol .openBracket → Derives .disjunction n ts i →
      closing.kind = .symbol .closeBracket →
      Within hole .suffixed (n + 1) us (vs ++ opening :: (ts ++ [closing])) (c.addIndex i)
  | index : Derives .suffixed (n + 1) ts base → opening.kind = .symbol .openBracket →
      Within hole .disjunction n us vs c → closing.kind = .symbol .closeBracket →
      Within hole .suffixed (n + 1) (ts ++ opening :: us) (vs ++ [closing]) (.atIndex base c)
  | argument : Derives .suffixed (n + 1) ts (.identifier callee) → opening.kind = .symbol .openParen →
      Leading n front before → Within hole .disjunction n us vs c → Trailing n back after →
      closing.kind = .symbol .closeParen →
      Within hole .suffixed (n + 1) (ts ++ opening :: (front ++ us)) (vs ++ back ++ [closing])
        (.argument callee before c after)
  | parens : opening.kind = .symbol .openParen → Within hole .disjunction n us vs c →
      closing.kind = .symbol .closeParen → Within hole .suffixed (n + 1) (opening :: us) (vs ++ [closing]) c
  | element : opening.kind = .symbol .openCurly → Leading n front before → Within hole .disjunction n us vs c →
      Trailing n back after → closing.kind = .symbol .closeCurly →
      Within hole .suffixed (n + 1) (opening :: (front ++ us)) (vs ++ back ++ [closing]) (.element before c after)

variable {level : BindingLevel} {n : Nat} {us vs ts hole : List Token} {c : Context} {e : Expr}

section Filling

theorem Lists.between (hfront : Leading n front before) (he : Derives .disjunction n ts e)
    (hback : Trailing n back after) : Lists n (front ++ ts ++ back) (before ++ e :: after) := by
  have hrest : Lists n (ts ++ back) (e :: after) := by
    obtain _ | ⟨hlist, hne, hcomma⟩ := hback
    case none => simpa using Lists.one he
    case some => exact (Lists.one he).append (List.cons_ne_nil _ _) hcomma hlist hne
  obtain _ | ⟨hlist, hne, hcomma⟩ := hfront
  case none => exact hrest
  case some => simpa using hlist.append hne hcomma hrest (List.cons_ne_nil _ _)

-- What is a suffixed expression by itself fills the hole.
theorem Within.derives (h : Within hole level n us vs c) (hfill : ∀ n, Derives .suffixed n hole e)
    (he : ∀ base indices, e ≠ .index base indices) : Derives level n (us ++ hole ++ vs) (c.plug e) := by
  induction h
  case hole => simpa using hfill _
  case tighter ih => exact .tighter ih
  case left hkind ho _ hright ih => simpa using Derives.binary hkind ho ih hright
  case right hkind ho hleft _ ih => simpa using Derives.binary hkind ho hleft ih
  case leftCompared hkind ho _ hright ih => simpa using Derives.comparison hkind ho ih hright
  case rightCompared hkind ho hleft _ ih => simpa using Derives.comparison hkind ho hleft ih
  case negate us _ vs _ _ hminus hhead _ ih =>
    have hhead' : ∀ t ∈ (us ++ hole ++ vs).head?, t.kind.isNumber = false := by
      rwa [List.head?_append_of_ne_nil _ (List.append_ne_nil_of_right_ne_nil us (hfill 0).ne_nil)]
    exact .negate hminus hhead' ih
  case not hbang _ ih => exact .not hbang ih
  case base _ hopen hi hclose ih =>
    rw [Context.plug_addIndex he]
    simpa using Derives.index ih hopen hi hclose
  case index hbase hopen _ hclose ih =>
    rw [Context.plug_atIndex]
    simpa using Derives.index hbase hopen ih hclose
  case argument hcallee hopen hfront _ hback hclose ih =>
    obtain ⟨parts, hes, hparts, hsep⟩ := Lists.between hfront ih hback
    have hcall := Derives.call parts hcallee hopen hparts hsep hclose
    rw [← hes] at hcall
    simpa using hcall
  case parens hopen _ hclose ih =>
    have hparens : Derives .suffixed _ _ _ := .tighter (.parens hopen ih hclose)
    simpa using hparens
  case element hopen hfront _ hback hclose ih =>
    obtain ⟨parts, hes, hparts, hsep⟩ := Lists.between hfront ih hback
    have hne : parts ≠ [] := by
      rintro rfl
      simp at hes
    have harray : Derives .suffixed _ _ _ := .tighter (.array parts hopen hne hparts hsep hclose)
    rw [← hes] at harray
    simpa using harray

-- The hole may be taken by other tokens, but not by a number where the old ones were none.
theorem Within.refill (h : Within hole level n us vs c)
    (hhead : ∀ t ∈ hole'.head?, t.kind.isNumber = true → ∃ u ∈ hole.head?, u.kind.isNumber = true) :
    Within hole' level n us vs c := by
  induction h
  case hole => exact .hole
  case tighter hrank _ ih => exact .tighter hrank ih
  case left hkind ho _ hsecond ih => exact .left hkind ho ih hsecond
  case right hkind ho hfirst _ ih => exact .right hkind ho hfirst ih
  case leftCompared hkind ho _ hsecond ih => exact .leftCompared hkind ho ih hsecond
  case rightCompared hkind ho hfirst _ ih => exact .rightCompared hkind ho hfirst ih
  case negate us _ _ _ _ hminus hnumber _ ih =>
    refine .negate hminus ?_ ih
    cases us
    case cons => exact hnumber
    case nil =>
      intro t ht
      by_contra hne
      obtain ⟨u, hu, hnumber'⟩ := hhead t ht (eq_true_of_ne_false hne)
      exact Bool.false_ne_true <| (hnumber u hu).symm.trans hnumber'
  case not hbang _ ih => exact .not hbang ih
  case base _ hopen hi hclose ih => exact .base ih hopen hi hclose
  case index hbase hopen _ hclose ih => exact .index hbase hopen ih hclose
  case argument hcallee hopen hfront _ hback hclose ih => exact .argument hcallee hopen hfront ih hback hclose
  case parens hopen _ hclose ih => exact .parens hopen ih hclose
  case element hopen hfront _ hback hclose ih => exact .element hopen hfront ih hback hclose

end Filling

section Fronts

theorem Atom.endsOperand (h : Atom t e) : t.kind.endsOperand = true := by
  obtain h | h | h | h | h | ⟨h, -⟩ := h
  case number => exact Kind.endsOperand_of_isNumber h
  all_goals
    rw [h]
    rfl

theorem Derives.endsOperand (h : Derives level n ts e) : ∀ t ∈ ts.getLast?, t.kind.endsOperand = true := by
  have hlast {t : Token} {us : List Token} (ts : List Token) (hne : us ≠ []) :
      (ts ++ t :: us).getLast? = us.getLast? := by
    rw [← List.singleton_append, ← List.append_assoc, List.getLast?_append_of_ne_nil _ hne]
  have hclosing {closing : Token} (ts : List Token) (h : closing.kind.endsOperand = true) :
      ∀ t ∈ (ts ++ [closing]).getLast?, t.kind.endsOperand = true := by
    simpa using h
  induction h
  case tighter ih => exact ih
  case binary hright _ ih | comparison hright _ ih => rwa [hlast _ hright.ne_nil]
  case negate ts _ _ _ _ he ih | not ts _ _ _ he ih => rwa [← List.nil_append (_ :: ts), hlast _ he.ne_nil]
  case negative hnumber _ => exact hclosing [_] (Kind.endsOperand_of_isNumber hnumber)
  case member dot field ts _ _ _ _ hfield _ =>
    rw [List.append_cons]
    exact hclosing _ (by rw [hfield]; rfl)
  case index hclose _ _ | call hclose _ _ =>
    rw [hlast _ (by simp)]
    exact hclosing _ (by rw [hclose]; rfl)
  case parens hclose _ | array hclose _ =>
    rw [← List.cons_append]
    exact hclosing _ (by rw [hclose]; rfl)
  case atom h =>
    rintro _ ⟨⟩
    exact h.endsOperand

theorem Derives.exists_head_append (h : Derives level n ts e) (us : List Token) :
    ∃ t rest, ts ++ us = t :: rest ∧ t.kind.beginsExpr = true := by
  obtain ⟨t, rest, rfl, ht⟩ := h.exists_head
  exact ⟨t, rest ++ us, rfl, ht⟩

theorem Leading.exists_head (h : Leading n front es) (hts : ∃ t rest, ts = t :: rest ∧ t.kind.beginsExpr = true) :
    ∃ t rest, front ++ ts = t :: rest ∧ t.kind.beginsExpr = true := by
  obtain _ | ⟨⟨parts, rfl, hparts, hsep⟩, hne, -⟩ := h
  case none => exact hts
  case some =>
    obtain ⟨part, parts, rfl⟩ := List.exists_cons_of_ne_nil fun hnil => hne (congrArg (List.map Prod.snd) hnil)
    obtain ⟨us, rfl⟩ := hsep.exists_append
    rw [List.append_assoc, List.append_assoc]
    exact (hparts part List.mem_cons_self).exists_head_append _

theorem Within.exists_head (h : Within hole level n us vs c)
    (hhole : ∃ t rest, hole = t :: rest ∧ t.kind.beginsExpr = true) :
    ∃ t rest, us ++ hole = t :: rest ∧ t.kind.beginsExpr = true := by
  induction h
  case hole => exact hhole
  case tighter ih | left ih | leftCompared ih | base ih => exact ih
  case right h _ _ | rightCompared h _ _ | index h _ _ _ _ | argument h _ _ _ _ _ _ =>
    rw [List.append_assoc]
    exact h.exists_head_append _
  case negate h _ _ _ | not h _ _ | parens h _ _ _ | element h _ _ _ _ _ =>
    exact ⟨_, _, rfl, by rw [h]; rfl⟩

-- Behind the tokens an operand is due.
def Awaits (us : List Token) : Prop :=
  ∀ u ∈ us.getLast?, u.kind.endsOperand = false

theorem Awaits.append (h : Awaits ts) (h' : Awaits us) : Awaits (ts ++ us) := by
  obtain rfl | ⟨us, u, rfl⟩ := us.eq_nil_or_concat'
  case inl => rwa [List.append_nil]
  case inr => simpa [Awaits] using h'

theorem Awaits.concat (h : Awaits us) (ts : List Token) {t : Token} (ht : t.kind.endsOperand = false) :
    Awaits (ts ++ t :: us) := by
  rw [List.append_cons]
  exact .append (by simpa [Awaits] using ht) h

theorem Awaits.nil : Awaits [] := by
  simp [Awaits]

theorem awaits_of_leading (h : Leading n ts es) : Awaits ts := by
  obtain _ | ⟨-, -, hcomma⟩ := h
  case none => exact .nil
  case some => exact .concat .nil _ (by rw [hcomma]; rfl)

theorem Within.awaits (h : Within hole level n us vs c) : Awaits us := by
  induction h
  case hole => exact .nil
  case tighter ih | left ih | leftCompared ih | base ih => exact ih
  case right hkind _ _ _ ih | rightCompared hkind _ _ _ ih => exact ih.concat _ (hkind ▸ Operator.endsOperand_kind _)
  case negate h _ _ ih | not h _ ih | parens h _ _ ih => exact ih.concat [] (by rw [h]; rfl)
  case index h _ _ ih => exact ih.concat _ (by rw [h]; rfl)
  case argument h hfront _ _ _ ih => exact ((awaits_of_leading hfront).append ih).concat _ (by rw [h]; rfl)
  case element h hfront _ _ _ ih => exact ((awaits_of_leading hfront).append ih).concat [] (by rw [h]; rfl)

end Fronts

section Subtractions

-- The last of the tokens before the hole is the minus of a subtraction, and the hole is in the second operand.
inductive Subtracts (us : List Token) (c : Context) : Prop
  | intro {front ts : List Token} {minus : Token} {n : Nat} {first : Expr} {outer within : Context} :
      us = front ++ ts ++ [minus] → Derives .sum n ts first →
      (∀ e, (∀ base indices, e ≠ .index base indices) →
        c.plug e = outer.plug (.binary .subtract first (within.plug e))) →
      Subtracts us c

variable {m t : Token} {f : Context → Context} {g : Expr → Expr}

namespace Subtracts

theorem extend (h : Subtracts us c) (ts : List Token)
    (hplug : ∀ {c x}, (∀ base indices, x ≠ .index base indices) → (f c).plug x = g (c.plug x)) :
    Subtracts (ts ++ us) (f c) := by
  obtain @⟨front, us, minus, n, first, outer, within, rfl, hfirst, hc⟩ := h
  have hplug' (e : Expr) (he : ∀ base indices, e ≠ .index base indices) :
      (f c).plug e = (f outer).plug (.binary .subtract first (within.plug e)) := by
    have hbinary : ∀ base indices, Expr.binary .subtract first (within.plug e) ≠ .index base indices := nofun
    rw [hplug he, hc e he, hplug hbinary]
  have heq : ts ++ (front ++ us ++ [minus]) = ts ++ front ++ us ++ [minus] := by simp
  exact .intro heq hfirst hplug'

theorem prepend (ts : List Token) (h : us.getLast? = some m → Subtracts us c) (hne : us ≠ [])
    (hlast : (ts ++ us).getLast? = some m)
    (hplug : ∀ {c x}, (∀ base indices, x ≠ .index base indices) → (f c).plug x = g (c.plug x)) :
    Subtracts (ts ++ us) (f c) := by
  rw [List.getLast?_append_of_ne_nil _ hne] at hlast
  exact (h hlast).extend ts hplug

theorem behind (ts : List Token) (h : us.getLast? = some m → Subtracts us c) (ht : t ≠ m)
    (hlast : (ts ++ t :: us).getLast? = some m)
    (hplug : ∀ {c x}, (∀ base indices, x ≠ .index base indices) → (f c).plug x = g (c.plug x)) :
    Subtracts (ts ++ t :: us) (f c) := by
  rw [List.append_cons] at hlast ⊢
  refine prepend _ h ?_ hlast hplug
  rintro rfl
  exact ht (by simpa using hlast)

theorem behind_leading (h : us.getLast? = some m → Subtracts us c) (hfront : Leading n front es)
    (hm : m.kind = .symbol .minus) (hlast : (front ++ us).getLast? = some m) : Subtracts (front ++ us) c := by
  obtain _ | ⟨-, -, hcomma⟩ := hfront
  case none => exact h hlast
  case some =>
    rw [← List.append_cons] at hlast ⊢
    refine behind (f := id) (g := id) _ h ?_ hlast fun _ => rfl
    rintro rfl
    rw [hcomma] at hm
    contradiction

end Subtracts

-- The minus is the operator of the innermost `right`, since every other token that may stand before the hole is none.
theorem Within.subtracts (h : Within hole level n us vs c) (hhole : ∃ t ∈ hole.head?, t.kind.isNumber = true)
    (hm : m.kind = .symbol .minus) (hlast : us.getLast? = some m) : Subtracts us c := by
  have hother {u : Token} {k : Kind} (hu : u.kind = k) (hk : k ≠ .symbol .minus) : u ≠ m := by
    rintro rfl
    exact hk (hu.symm.trans hm)
  induction h
  case hole => contradiction
  case tighter ih => exact ih hlast
  case left ih | leftCompared ih => exact (ih hlast).extend (f := (.left _ · _)) (g := (.binary _ · _)) [] fun _ => rfl
  case base ih => exact (ih hlast).extend (f := (·.addIndex _)) (g := (addIndex · _)) [] Context.plug_addIndex
  case right _ ts first us _ c minus o hkind ho hfirst _ ih =>
    by_cases hne : us = []
    case neg =>
      rw [List.append_cons] at hlast ⊢
      exact .prepend (f := .right o first) (g := .binary o first) _ ih hne hlast fun _ => rfl
    case pos =>
      subst hne
      obtain rfl : minus = m := by simpa using hlast
      obtain rfl : o = .subtract := by
        rw [hkind] at hm
        cases o <;> first | rfl | contradiction
      have hplug (e : Expr) (_ : ∀ base indices, e ≠ .index base indices) :
          (Context.right .subtract first c).plug e = Context.hole.plug (.binary .subtract first (c.plug e)) := rfl
      have heq : ts ++ [minus] = [] ++ ts ++ [minus] := rfl
      exact .intro heq hfirst hplug
  case rightCompared _ _ first _ _ _ _ o hkind ho _ _ ih =>
    refine .behind (f := .right o first) (g := .binary o first) _ ih (hother hkind ?_) hlast fun _ => rfl
    rintro hminus
    cases o <;> contradiction
  case negate us _ _ _ minus _ hnumber _ ih =>
    refine .prepend (f := .negate) (g := .negate) [minus] ih ?_ hlast fun _ => rfl
    rintro rfl
    obtain ⟨t, ht, hnumber'⟩ := hhole
    exact Bool.false_ne_true <| (hnumber t ht).symm.trans hnumber'
  case not hbang _ ih => exact .behind (f := .not) (g := .not) [] ih (hother hbang nofun) hlast fun _ => rfl
  case index hopen _ _ ih =>
    exact .behind (g := addIndex _) _ ih (hother hopen nofun) hlast fun _ => Context.plug_atIndex
  case argument hopen hfront _ _ _ ih =>
    exact .behind (f := (.argument _ _ · _)) (g := fun e => .call _ (_ ++ e :: _)) _ (.behind_leading ih hfront hm)
      (hother hopen nofun) hlast fun _ => rfl
  case parens hopen _ _ ih => exact .behind (f := id) (g := id) [] ih (hother hopen nofun) hlast fun _ => rfl
  case element hopen hfront _ _ _ ih =>
    exact .behind (f := (.element _ · _)) (g := fun e => .array (_ ++ e :: _)) [] (.behind_leading ih hfront hm)
      (hother hopen nofun) hlast fun _ => rfl

end Subtractions

end Grammar
end BasicFrontEnd
