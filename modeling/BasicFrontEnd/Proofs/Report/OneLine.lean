import BasicFrontEnd.Command
import BasicFrontEnd.Proofs.Relabel.Layout
import BasicFrontEnd.Proofs.Relabel.Names
import BasicFrontEnd.Proofs.Report.Faults

/-!
The report of a failure is one line, unless it shows a string in which a line ends. Main statement:
`not_oneLine_message_iff`.
-/

namespace BasicFrontEnd

section Parts

theorem Text.oneLine_quoted (s : String) : OneLine (quoted s) :=
  ⟨not_mem_quoted (by decide) s, not_mem_quoted (by decide) s⟩

theorem Text.oneLine_quotedChar (c : Char) : OneLine (quotedChar c) := by
  have hmem {d : Char} (hd : isGraphic d = false) : d ∉ (quotedChar c).toList := by
    simpa [quotedChar] using not_mem_quoteChars (by decide) hd [c]
  exact ⟨hmem (by decide), hmem (by decide)⟩

variable {d : Diagnostic}

-- What stands around the texts in a report ends no line.
theorem Diagnostic.oneLine_message_of_badToken (hcause : d.cause = .badToken expected got) :
    OneLine d.message ↔ OneLine expected ∧ OneLine got := by
  have hstart : OneLine "Syntax Error (line " := by decide
  have hexpected : OneLine "): Expected " := by decide
  have hgot : OneLine " but got '" := by decide
  have hend : OneLine "'." := by decide
  rw [message, hcause]
  simp only [oneLine_append, hstart, oneLine_toString, hexpected, hgot, hend, and_true, true_and]

theorem Diagnostic.oneLine_message (hcause : ∀ expected got, d.cause ≠ .badToken expected got)
    (h : OneLine d.cause.description) : OneLine d.message := by
  have hline : OneLine " (line " := by decide
  have hcolumn : OneLine ", column " := by decide
  have hend : OneLine ")" := by decide
  unfold message
  split
  case h_1 hbad => exact absurd hbad (hcause _ _)
  case h_2 | h_3 => exact h
  case h_4 => simp only [oneLine_append, h, hline, oneLine_toString, hcolumn, hend, and_self]

end Parts

section Sources

variable {s : Source} {d : Diagnostic}

theorem Lexical.oneLine_message_of_tokens (h : s.tokens = .error d) : OneLine d.message := by
  obtain ⟨row, rest, -, -, hblocked⟩ := exists_blocked_of_tokens h
  have hcharacter (c : Char) : OneLine (Cause.unknownCharacter c).description :=
    oneLine_append.mpr ⟨by decide, Text.oneLine_quotedChar c⟩
  cases hblocked
  case stuck hstuck =>
    cases hstuck
    case string =>
      have hunterminated : OneLine Cause.unterminatedString.description := by decide
      exact Diagnostic.oneLine_message (by simp [Token.faultAt]) hunterminated
    all_goals exact Diagnostic.oneLine_message (by simp [Token.faultAt]) (hcharacter _)
  case tooLong =>
    have hlimit := oneLine_toString Token.maxLength
    refine Diagnostic.oneLine_message (by simp [Token.faultAt]) ?_
    exact oneLine_append.mpr ⟨oneLine_append.mpr ⟨by decide, hlimit⟩, by decide⟩

theorem Lexical.Lexeme.oneLine (h : Lexeme kind text value) (hkind : kind ≠ .string) : OneLine (.ofList value) := by
  rw [h.value_eq hkind, OneLine, String.toList_ofList]
  exact ⟨fun hmem => absurd (h.isVisible hkind _ hmem) (by decide),
    fun hmem => absurd (h.isVisible hkind _ hmem) (by decide)⟩

-- Only in strings does a line end.
theorem Lexical.oneLine_of_tokens {stream : Stream} (h : s.tokens = .ok stream) :
    ∀ t ∈ stream.toList, t.kind ≠ .string → OneLine t.value := by
  intro t ht hkind
  obtain ⟨words, hwords, hproper⟩ := exists_proper_of_tokens h
  have hword : t.word ∈ framed words := hwords ▸ List.mem_map_of_mem ht
  obtain hhead | hword | heof : t.word = ⟨.head, "HEAD"⟩ ∨ t.word ∈ words ∨ t.word = ⟨.eof, "EOF"⟩ := by
    simpa [framed] using hword
  case inl =>
    rw [show t.value = "HEAD" from congrArg Word.value hhead]
    decide
  case inr.inl =>
    have honeLine := ((hproper _ hword).spelling hkind).oneLine hkind
    rwa [String.ofList_toList] at honeLine
  case inr.inr =>
    rw [show t.value = "EOF" from congrArg Word.value heof]
    decide

end Sources

section Names

-- The name with a mark in front if a line ends in it.
def marked (name : String) : String :=
  if OneLine name then name else "\n" ++ name

theorem marked_of_oneLine (h : OneLine name) : marked name = name :=
  if_pos h

theorem oneLine_marked : OneLine (marked name) ↔ OneLine name := by
  have hmark : ¬OneLine "\n" := by decide
  unfold marked
  split
  case isTrue => rfl
  case isFalse h => simp [h]

theorem marked_injective : Function.Injective marked := by
  intro name name' heq
  have hiff : OneLine name ↔ OneLine name' := by rw [← oneLine_marked, heq, oneLine_marked]
  by_cases h : OneLine name
  case pos => rwa [marked, if_pos h, marked, if_pos (hiff.mp h)] at heq
  case neg =>
    rw [marked, if_neg h, marked, if_neg (mt hiff.mpr h)] at heq
    exact String.append_right_inj _ |>.mp heq

def marking : Relabelling :=
  .ofRename marked marked_injective

-- The second text is the first with names in it marked.
inductive Marks : String → String → Prop
  | fixed  : OneLine text → Marks text text
  | name   : Marks name (marked name)
  | append : Marks text marks → Marks text' marks' → Marks (text ++ text') (marks ++ marks')

def lineFeeds (text : String) : Nat :=
  text.toList.count '\n'

theorem lineFeeds_append (text text' : String) : lineFeeds (text ++ text') = lineFeeds text + lineFeeds text' := by
  simp [lineFeeds]

theorem lineFeeds_marked (name : String) :
    lineFeeds (marked name) = lineFeeds name + if OneLine name then 0 else 1 := by
  unfold marked
  split
  case isTrue => rfl
  case isFalse => simp [lineFeeds, Nat.add_comm]

theorem Marks.lineFeeds_le (h : Marks text marks) : lineFeeds text ≤ lineFeeds marks := by
  induction h
  case fixed => exact Nat.le_refl _
  case name => simp [lineFeeds_marked]
  case append ih ih' =>
    rw [lineFeeds_append, lineFeeds_append]
    exact Nat.add_le_add ih ih'

-- Marks are seen by the line feeds in them.
theorem Marks.oneLine (h : Marks text marks) (hle : lineFeeds marks ≤ lineFeeds text) : OneLine text := by
  induction h
  case fixed h => exact h
  case name =>
    by_contra hname
    simp [lineFeeds_marked, hname] at hle
  case append h h' ih ih' =>
    rw [lineFeeds_append, lineFeeds_append] at hle
    have hcount := h.lineFeeds_le
    have hcount' := h'.lineFeeds_le
    exact oneLine_append.mpr ⟨ih (by omega), ih' (by omega)⟩

-- Where no line ends in the name of an identifier, marking changes nothing.
theorem Stream.relabel_marking {stream : Stream}
    (h : ∀ t ∈ stream.toList, t.kind = .identifier → OneLine t.value) : stream.relabel marking = stream := by
  have htoken : ∀ t ∈ stream.toList, t.relabel marking = t := by
    intro t ht
    have hvalue : (t.relabel marking).value = t.value := by
      by_cases hkind : t.kind = .identifier
      case pos => rw [t.value_relabel_of_name _ hkind]; exact marked_of_oneLine (h t ht hkind)
      case neg => exact t.value_relabel_of_ne _ hkind
    exact Token.ext rfl hvalue rfl rfl
  have hmap {ts : List Token} (hts : ∀ t ∈ ts, t ∈ stream.toList) : ts.map (·.relabel marking) = ts :=
    (List.map_congr_left fun t ht => htoken t (hts t ht)).trans (List.map_id ts)
  exact Stream.ext (hmap (by simp +contextual [toList])) (htoken _ (by simp [toList]))
    (hmap (by simp +contextual [toList]))

end Names

section Faults

open Shape

namespace Shape.Fault

-- How the message begins.
def initial : Fault → Char
  | duplicateMember _ _ | duplicateFormal _ _ | duplicateLabel _ => 'd'
  | unknownTarget _                                              => 'g'
  | notAssignable _                                              => 'c'
  | undeclared _ _                                               => '`'

theorem head?_message (fault : Fault) : fault.message.toList.head? = some fault.initial := by
  have happend {text : String} {c : Char} (h : text.toList.head? = some c) (text' : String) :
      (text ++ text').toList.head? = some c := by
    rw [String.toList_append, List.head?_append, h]
    rfl
  cases fault <;> dsimp only [message, initial]
  case duplicateMember | duplicateFormal => exact happend (happend (happend (happend (by decide) _) _) _) _
  case duplicateLabel | unknownTarget | notAssignable => exact happend (happend (by decide) _) _
  case undeclared => exact happend (happend (happend (happend (happend (happend (by decide) _) _) _) _) _) _

theorem marks_message {fault : Fault} (hkind : ∀ kind, fault = .notAssignable kind → OneLine kind) :
    Marks fault.message (fault.relabel marking).message := by
  -- A name in the message and what stands in front of it and behind it.
  have hamong {text marks name name' text' : String} (h : Marks text marks) (hname : Marks name name')
      (h' : OneLine text') : Marks (text ++ name ++ text') (marks ++ name' ++ text') :=
    .append (.append h hname) (.fixed h')
  have hname (name : String) : Marks name (marking.name name) := .name
  cases fault <;> dsimp only [message, relabel]
  case duplicateMember member record | duplicateFormal member record =>
    exact hamong (hamong (.fixed (by decide)) (hname member) (by decide)) (hname record) (by decide)
  case duplicateLabel name | unknownTarget name => exact hamong (.fixed (by decide)) (hname name) (by decide)
  case notAssignable kind => exact hamong (.fixed (by decide)) (.fixed (hkind kind rfl)) (by decide)
  case undeclared name field =>
    refine hamong ?access (hname name) (by decide)
    exact hamong (hamong (.fixed (by decide)) (hname name) (by decide)) (hname field) (by decide)

end Shape.Fault

theorem exists_breaks_of_check {p : Program} {d : Diagnostic} (h : p.check.1 = .error d) :
    ∃ i fault position, Breaks (programVisits p) i fault position ∧ d = fault.toDiagnostic position := by
  have hcarried : Carried (programVisits p) [] (programVisits p) [] (checkStmts p.body .initial) :=
    carries_checkStmts p.body (within_programVisits p) _ (matches_initial _)
  rw [check_eq] at h
  generalize checkStmts p.body .initial = outcome at hcarried h
  obtain ⟨result, s⟩ := outcome
  obtain rfl : result = .error d := h
  obtain ⟨i, fault, position, -, -, hbreaks, hd, -⟩ : Fails (programVisits p) 0 (programVisits p).length d := by
    simpa [Carried] using hcarried
  exact ⟨i, fault, position, hbreaks, hd⟩

-- A fault of the check that marking keeps tells no name in which a line ends.
theorem Diagnostic.Relabels.oneLine_message {fault : Fault} {position : Position}
    (h : (fault.toDiagnostic position).Relabels marking d') (hsame : d' = fault.toDiagnostic position)
    (hfault : fault.initial ≠ 'c') : OneLine fault.message := by
  generalize hd : fault.toDiagnostic position = d at h hsame
  cases h
  case unexpected | number => cases hd
  case tree fault' _ =>
    have hmessage : fault.message = fault'.message := Cause.badTree.inj (congrArg Diagnostic.cause hd)
    have hmarked : (fault'.relabel marking).message = fault'.message :=
      Cause.badTree.inj (congrArg Diagnostic.cause hsame)
    have hinitial : fault'.initial ≠ 'c' := by
      have hhead := fault.head?_message
      rw [hmessage, fault'.head?_message] at hhead
      rwa [Option.some.inj hhead]
    have hmarks : Marks fault'.message (fault'.relabel marking).message :=
      Fault.marks_message fun _ hkind => absurd (hkind ▸ rfl) hinitial
    rw [hmessage]
    exact hmarks.oneLine (by rw [hmarked])

theorem Program.oneLine_message_of_check {p : Program} {d : Diagnostic} (hp : p.relabel marking = p)
    (h : p.check.1 = .error d) : OneLine d.message := by
  obtain ⟨i, fault, position, ⟨v, -, hfaulty⟩, rfl⟩ := exists_breaks_of_check h
  have hsame : (fault.toDiagnostic position).Relabels marking (fault.toDiagnostic position) := by
    have hagrees := p.check_relabel marking
    rw [hp, h] at hagrees
    exact hagrees.of_error
  have hmessage : OneLine fault.message := by
    cases hfaulty
    case target target _ =>
      have hkind : OneLine target.kindName := by cases target <;> rw [Expr.kindName] <;> decide
      exact oneLine_append.mpr ⟨oneLine_append.mpr ⟨by decide, hkind⟩, by decide⟩
    all_goals exact hsame.oneLine_message rfl (by simp [Fault.initial])
  have hdescription : OneLine (Cause.badTree fault.message).description := oneLine_append.mpr ⟨by decide, hmessage⟩
  exact Diagnostic.oneLine_message (by simp [Fault.toDiagnostic]) hdescription

end Faults

section Reports

variable {s : Source} {stream : Stream} {p : Program} {d : Diagnostic}

theorem Stream.result_eq_error (h : stream.result = .error d) :
    stream.read.1 = .error d ∨ ∃ p, stream.read.1 = .ok p ∧ p.check.1 = .error d := by
  unfold result at h
  generalize stream.read = outcome at h ⊢
  obtain ⟨_ | p, events⟩ := outcome
  case error => exact .inl h
  case ok =>
    refine .inr ⟨p, rfl, ?_⟩
    replace h : p.check.1 >>= (fun _ => pure p) = .error d := h
    generalize p.check = outcome at h ⊢
    obtain ⟨_ | _, events⟩ := outcome <;> cases h
    rfl

theorem Stream.oneLine_message_of_check (htokens : s.tokens = .ok stream) (hread : stream.read.1 = .ok p)
    (hcheck : p.check.1 = .error d) : OneLine d.message := by
  have hstream : stream.relabel marking = stream :=
    relabel_marking fun t ht hkind => Lexical.oneLine_of_tokens htokens t ht (by simp [hkind])
  have hp : p.relabel marking = p := by
    have hagrees := stream.read_relabel marking
    rw [hstream, hread] at hagrees
    exact hagrees.eq_of_ok.symm
  exact Program.oneLine_message_of_check hp hcheck

-- Of a token other than a string is told in one line.
theorem Grammar.Told.exists_string (h : Grammar.Told ts d)
    (hts : ∀ t ∈ ts, t.kind ≠ .string → OneLine t.value) (hlines : ¬OneLine d.message) :
    ∃ t ∈ ts, t.kind = .string ∧ ¬OneLine t.value ∧ ∃ expected, d = t.fault (.badToken expected t.value) := by
  cases h
  case token expected v hv hexpected =>
    have hiff := Diagnostic.oneLine_message_of_badToken (d := v.fault (.badToken expected v.value)) rfl
    have hvalue : ¬OneLine v.value := fun hvalue => hlines (hiff.mpr ⟨hexpected, hvalue⟩)
    have hkind : v.kind = .string := by
      by_contra hkind
      exact hvalue (hts v hv hkind)
    exact ⟨v, hv, hkind, hvalue, expected, rfl⟩
  case number text v _ =>
    have hdescription : OneLine (Cause.badNumber text).description :=
      oneLine_append.mpr ⟨by decide, Text.oneLine_quoted text⟩
    exact (hlines <| Diagnostic.oneLine_message (by simp [Token.fault]) hdescription).elim

-- A source that fails is told of in one line, with what the command adds, unless it is a string that is unexpected: its
-- value is shown as it is, and a line may end in it.
theorem not_oneLine_message_iff (h : s.compile.result = .error d) :
    (∀ path found, Command.openSource path found = .ok s →
      Command.compilePath path found = ⟨d.cause.exitCode, d.message ++ "\nparse failed\n"⟩) ∧
    (¬OneLine d.message ↔ ∃ stream, s.tokens = .ok stream ∧ ∃ t ∈ stream.toList, t.kind = .string ∧ ¬OneLine t.value ∧
      ∃ expected, d = t.fault (.badToken expected t.value)) := by
  refine ⟨fun path found hs => ?output, fun hlines => ?string, ?lines⟩
  case output =>
    have houtcome : (do (← Command.openSource path found).compile.result) = .error d := by
      rw [hs]
      exact h
    rw [Command.compilePath, houtcome]
    rfl
  case string =>
    rw [Source.compile_result] at h
    cases htokens : s.tokens
    case error d' =>
      rw [htokens] at h
      cases h
      exact absurd (Lexical.oneLine_message_of_tokens htokens) hlines
    case ok stream =>
      rw [htokens] at h
      obtain hread | ⟨p, hread, hcheck⟩ := Stream.result_eq_error h
      case inl =>
        have hahead : ∀ t ∈ stream.ahead, t ∈ stream.toList := fun t ht => by simp [Stream.toList, ht]
        have htold := Stream.told_of_read htokens hread
        obtain ⟨t, ht, hstring⟩ :=
          htold.exists_string (fun t ht => Lexical.oneLine_of_tokens htokens t (hahead t ht)) hlines
        exact ⟨stream, rfl, t, hahead t ht, hstring⟩
      case inr => exact absurd (Stream.oneLine_message_of_check htokens hread hcheck) hlines
  case lines =>
    rintro ⟨stream, -, t, -, -, hvalue, expected, hd⟩ hmessage
    have hcause : d.cause = .badToken expected t.value := congrArg Diagnostic.cause hd
    exact hvalue ((Diagnostic.oneLine_message_of_badToken hcause).mp hmessage).2

-- A string over two lines stands where a declaration is missing.
def brokenString : List UInt8 :=
  [0x22, 0x61, 0x0A, 0x62, 0x22, 0x0A]

theorem compilePath_brokenString :
    Command.compilePath "f" (.ok (.file brokenString)) =
      ⟨104, "Syntax Error (line 1): Expected declaration but got 'a\nb'.\nparse failed\n"⟩ := by
  decide +kernel

theorem not_oneLine_message_iff_brokenString :
    ∃ d, (Source.ofBytes "f" brokenString).compile.result = .error d ∧ ¬OneLine d.message ∧
      ∃ stream, (Source.ofBytes "f" brokenString).tokens = .ok stream ∧
        ∃ t ∈ stream.toList, t.kind = .string ∧ ¬OneLine t.value := by
  have hrun : Command.compilePath "f" (.ok (.file brokenString)) =
      ⟨104, "Syntax Error (line 1): Expected declaration but got 'a\nb'." ++ "\nparse failed\n"⟩ := by
    decide +kernel
  cases h : (Source.ofBytes "f" brokenString).compile.result
  case ok p =>
    have houtcome : (do (← Command.openSource "f" (.ok (.file brokenString))).compile.result) = .ok p := h
    rw [Command.compilePath, houtcome] at hrun
    have hcode : 0 = 104 := congrArg Command.Outcome.exitCode hrun
    contradiction
  case error d =>
    obtain ⟨hprinted, hiff⟩ := not_oneLine_message_iff h
    have hmessage : d.message = "Syntax Error (line 1): Expected declaration but got 'a\nb'." := by
      have houtput := congrArg Command.Outcome.output ((hprinted "f" _ rfl).symm.trans hrun)
      exact String.append_left_inj _ |>.mp houtput
    have hlines : ¬OneLine d.message := by rw [hmessage]; decide
    obtain ⟨stream, hs, t, ht, hkind, hvalue, -⟩ := hiff.mp hlines
    exact ⟨d, rfl, hlines, stream, hs, t, ht, hkind, hvalue⟩

end Reports

end BasicFrontEnd
