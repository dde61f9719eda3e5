import BasicFrontEnd.Compile
import BasicFrontEnd.Proofs.Text.Decode

/-!
A source is the same whether it is loaded from a file or is a text in memory: its lines are cut from the bytes before
they are read as text, or from the text, and that makes no difference. Main statement: `Source.load_eq_ofText`.
-/

namespace BasicFrontEnd

theorem Lines.ofBytes_eq_ofText (bs : List UInt8) : ofBytes bs = ofText (Text.decode bs) := by
  rw [ofBytes, ofText, ← Text.map_decode_splitAfter, List.map_map]
  rfl

-- The lines make up the text.
theorem Lines.join_ofText (cs : List Char) : (String.join (ofText cs).toList).toList = cs := by
  have hlines : (ofText cs).toList = (Text.splitAfter (· == '\n') cs).map String.ofList := rfl
  have hpiece : (fun piece : List Char => (String.ofList piece).toList) = id := funext fun _ => String.toList_ofList
  rw [hlines, String.toList_join, List.flatMap_map, hpiece, List.flatMap_id, Text.flatten_splitAfter]

namespace Source

variable {s s' : Source}

-- Nothing but the bytes and the lines matters for the tokens, and so for what compiling makes of the source.
theorem tokens_congr (hbytes : s.bytes = s'.bytes) (hlines : s.lines = s'.lines) : s.tokens = s'.tokens := by
  rw [tokens, tokens, chars, chars, hbytes, hlines]

theorem compile_congr (hbytes : s.bytes = s'.bytes) (hlines : s.lines = s'.lines) : s.compile = s'.compile := by
  rw [compile, compile, tokens_congr hbytes hlines]

-- The lines of a loaded file are those of the text that its bytes are read as. Where the bytes are those of a text, the
-- file and the text make the same source.
theorem load_eq_ofText (path : String) (bytes : List UInt8) :
    ∃ s, load path (.ok (.file bytes)) = .ok s ∧ s.bytes = bytes ∧
      s.lines = (ofText (.ofList (Text.decode bytes))).lines ∧
      ∀ text : String, bytes = Text.encode text.toList →
        (ofText text).bytes = s.bytes ∧ (ofText text).lines = s.lines ∧
        Text.encode (String.join s.lines.toList).toList = bytes ∧
        (ofText text).tokens = s.tokens ∧ (ofText text).compile = s.compile := by
  refine ⟨ofBytes path bytes, rfl, rfl, ?_, fun text hbytes => ?_⟩
  case refine_1 =>
    show Lines.ofBytes bytes = Lines.ofText (String.ofList (Text.decode bytes)).toList
    rw [Lines.ofBytes_eq_ofText, String.toList_ofList]
  case refine_2 =>
    subst hbytes
    have hlines : (ofText text).lines = (ofBytes path (Text.encode text.toList)).lines := by
      show Lines.ofText text.toList = Lines.ofBytes (Text.encode text.toList)
      rw [Lines.ofBytes_eq_ofText, Text.decode_encode]
    refine ⟨rfl, hlines, ?_, tokens_congr rfl hlines, compile_congr rfl hlines⟩
    rw [← hlines]
    exact congrArg Text.encode (Lines.join_ofText text.toList)

-- A line with a letter of two bytes.
theorem load_eq_ofText_accent :
    [0xC3, 0xA9, 0x0A] = Text.encode "é\n".toList ∧
      ∃ s, load "" (.ok (.file [0xC3, 0xA9, 0x0A])) = .ok s ∧ (ofText "é\n").lines = s.lines ∧
        (ofText "é\n").compile = s.compile := by
  have hbytes : [0xC3, 0xA9, 0x0A] = Text.encode "é\n".toList := by decide
  obtain ⟨s, hs, -, -, htext⟩ := load_eq_ofText "" [0xC3, 0xA9, 0x0A]
  obtain ⟨-, hlines, -, -, hcompile⟩ := htext "é\n" hbytes
  exact ⟨hbytes, s, hs, hlines, hcompile⟩

end Source

end BasicFrontEnd
