import Estree.Number.Shortest
import Estree.Text.Printable
import Estree.Text.Case
import Estree.Value.Display
import Estree.Dict
import Estree.Node
import Estree.Node.Name
import Estree.Rule
import Estree.Rule.Draft
import Estree.Grammar.Standard
import Estree.Trace
import Estree.Json.Reader
import Estree.Json.Writer
import Estree.Document
import Estree.Toml.Reader
import Estree.Main
import Estree.Proofs.Trace.Layering
import Estree.Proofs.Walk.Erasure
import Estree.Proofs.Grammar.Branches
import Estree.Proofs.Trace.Branches
import Estree.Proofs.Trace.Dependencies
import Estree.Proofs.Trace.Depth
import Estree.Proofs.Value.Content
import Estree.Proofs.Value.Name
import Estree.Proofs.Value.Chain
import Estree.Proofs.Grammar.Styles
import Estree.Proofs.Trace.Styles
import Estree.Proofs.Grammar.Fold
import Estree.Proofs.Settings.Sources
import Estree.Proofs.Settings.Algebra
import Estree.Proofs.Walk.Turns
import Estree.Proofs.Walk.Contexts
import Estree.Proofs.Trace.Contexts
import Estree.Proofs.Grammar.Answers
import Estree.Proofs.Trace.Faults
import Estree.Proofs.Command.Flags
import Estree.Proofs.Document.LineEnds
import Estree.Proofs.Rule.Normal
import Estree.Proofs.Settings.Layers
import Estree.Proofs.Trace.SourceOrder
import Estree.Proofs.Trace.Optional
import Estree.Proofs.Walk.Suspended
import Estree.Proofs.Command.Formats
