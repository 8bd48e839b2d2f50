import Ebnf.Main
import Ebnf.Grammar.Yield
import Ebnf.Proofs.Layout.Idempotence
import Ebnf.Proofs.Parser.Language
import Ebnf.Proofs.Token.Items
import Ebnf.Proofs.Token.Fault
import Ebnf.Proofs.Token.Roundtrip
import Ebnf.Proofs.Document.Transparency
import Ebnf.Proofs.Parser.Nesting
import Ebnf.Proofs.Parser.FirstImpossible
import Ebnf.Proofs.Parser.Threshold
import Ebnf.Proofs.Parser.Calls
import Ebnf.Proofs.Parser.Descent
import Ebnf.Proofs.Layout.Content
import Ebnf.Proofs.Document.Concatenation
import Ebnf.Proofs.Document.Slices
import Ebnf.Proofs.Document.Rendering
import Ebnf.Proofs.Explorer.Reachable
import Ebnf.Proofs.Explorer.Window
import Ebnf.Proofs.Explorer.Colours
import Ebnf.Proofs.Explorer.RuleLines
import Ebnf.Proofs.Explorer.Rows
import Ebnf.Proofs.Parser.Due
import Ebnf.Proofs.Document.Expectation
import Ebnf.Proofs.Document.Locations
import Ebnf.Proofs.Command.Caret
import Ebnf.Proofs.Layout.Segments
import Ebnf.Proofs.Layout.TokenLine
import Ebnf.Proofs.Layout.NewlineKinds
import Ebnf.Proofs.Layout.Blocks
import Ebnf.Proofs.Document.Truncation
import Ebnf.Proofs.Layout.Lockstep
