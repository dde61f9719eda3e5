import BasicFrontEnd.Main
import BasicFrontEnd.Token.Cursor
import BasicFrontEnd.Proofs.Grammar.FirstFault
import BasicFrontEnd.Proofs.Grammar.Height
import BasicFrontEnd.Proofs.Grammar.Nesting
import BasicFrontEnd.Proofs.Writing.RoundTrip
import BasicFrontEnd.Proofs.Shape.Decides
import BasicFrontEnd.Proofs.Writing.Tokens
import BasicFrontEnd.Proofs.Writing.Filling
import BasicFrontEnd.Proofs.Relabel.Rules
import BasicFrontEnd.Proofs.Relabel.Programs
import BasicFrontEnd.Proofs.Relabel.Shapes
import BasicFrontEnd.Proofs.Relabel.Layout
import BasicFrontEnd.Proofs.Text.Decode
import BasicFrontEnd.Proofs.Source.Loading
import BasicFrontEnd.Proofs.Dump.Outlines
import BasicFrontEnd.Proofs.Dump.Legible
import BasicFrontEnd.Proofs.Dump.Trees
import BasicFrontEnd.Proofs.Grammar.Order
import BasicFrontEnd.Proofs.Grammar.Records
import BasicFrontEnd.Proofs.Relabel.Names
import BasicFrontEnd.Proofs.Report.Faults
import BasicFrontEnd.Proofs.Report.OneLine
import BasicFrontEnd.Proofs.Grammar.Consumed
import BasicFrontEnd.Proofs.Grammar.Recovery
import BasicFrontEnd.Proofs.Grammar.Places
import BasicFrontEnd.Proofs.Text.Pieces
import BasicFrontEnd.Proofs.Token.Lines
import BasicFrontEnd.Proofs.Source.Ending
import BasicFrontEnd.Proofs.Report.Caret
import BasicFrontEnd.Proofs.Grammar.Numerals
import BasicFrontEnd.Proofs.ChainedMap.Entries
import BasicFrontEnd.Proofs.Shape.Frame
import BasicFrontEnd.Proofs.Source.Joined
import BasicFrontEnd.Proofs.Source.Returns
import BasicFrontEnd.Proofs.Source.Restarts
import BasicFrontEnd.Proofs.Source.Counters
import BasicFrontEnd.Proofs.Grammar.Undoing
