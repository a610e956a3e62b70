import PuppetDocs.Source.Token
import PuppetDocs.Ruby.Lexeme
import PuppetDocs.Ruby.Heredoc
import PuppetDocs.Ruby.Scan
import PuppetDocs.Manifest.Scan
import PuppetDocs.Manifest.Definition
import PuppetDocs.Manifest.Parse
import PuppetDocs.Ruby.Node
import PuppetDocs.Ruby.Grammar.Args
import PuppetDocs.Ruby.Grammar.Calls
import PuppetDocs.Ruby.Grammar.Control
import PuppetDocs.Ruby.Grammar.Definitions
import PuppetDocs.Ruby.Grammar.Operators
import PuppetDocs.Ruby.Grammar.Primary
import PuppetDocs.Ruby.Parse
import PuppetDocs.Docs.Docstring
import PuppetDocs.Docs.Parse
import PuppetDocs.Source.Tree
import PuppetDocs.Json.Record
import PuppetDocs.Model.Attribute
import PuppetDocs.Model.Object
import PuppetDocs.Model.Json
import PuppetDocs.Model.Listing
import PuppetDocs.Config.Document
import PuppetDocs.Findings.Construct
import PuppetDocs.Findings.Inspect
import PuppetDocs.Findings.Search
import PuppetDocs.Findings.Context
import PuppetDocs.Findings.ResourceType
import PuppetDocs.Findings.ApiType
import PuppetDocs.Findings.DataType
import PuppetDocs.Findings.Function
import PuppetDocs.Findings.Manifest
import PuppetDocs.Findings.Provider
import PuppetDocs.Findings.File
import PuppetDocs.Run.Basic
import PuppetDocs.Proofs.Scan.Below
import PuppetDocs.Proofs.Tree.Order
import PuppetDocs.Proofs.Decl.RoundTrip
import PuppetDocs.Proofs.Descent.Text
import PuppetDocs.Proofs.Registry.History
import PuppetDocs.Proofs.Findings.Outcomes
import PuppetDocs.Proofs.Run.Places
import PuppetDocs.Proofs.Run.Rejected
import PuppetDocs.Proofs.Run.Reordering
import PuppetDocs.Proofs.Json.Fields
import PuppetDocs.Proofs.Json.RoundTrip
import PuppetDocs.Proofs.Findings.Switches
import PuppetDocs.Proofs.Findings.Visibility
import PuppetDocs.Proofs.Run.Steps
import PuppetDocs.Proofs.Run.Switches
import PuppetDocs.Proofs.Run.Visibility
import PuppetDocs.Proofs.Provider.Documented
import PuppetDocs.Proofs.Manifest.Coverage
import PuppetDocs.Proofs.Manifest.Ends
import PuppetDocs.Proofs.Manifest.Brackets
import PuppetDocs.Proofs.Brackets.Program
import PuppetDocs.Proofs.Manifest.Outline.RoundTrip
import PuppetDocs.Proofs.Construct.Held
import PuppetDocs.Proofs.LineEnds.Scan
import PuppetDocs.Proofs.Literal.Forms
import PuppetDocs.Proofs.Heredoc.Calls
import PuppetDocs.Proofs.Manifest.Heredocs.Hidden
import PuppetDocs.Proofs.Formula.RoundTrip
import PuppetDocs.Proofs.Comments.Places
import PuppetDocs.Proofs.Manifest.Laminar.Spans
import PuppetDocs.Proofs.Refusals.Places
import PuppetDocs.Proofs.Command.Arguments
import PuppetDocs.Proofs.Command.Scan
import PuppetDocs.Proofs.Command.Statement
import PuppetDocs.Proofs.Command.Tail
import PuppetDocs.Proofs.Command.Agreement
import PuppetDocs.Proofs.Docs.Outdent
import PuppetDocs.Proofs.Docs.Scrub
import PuppetDocs.Proofs.Docs.Sections
import PuppetDocs.Proofs.Docs.Written
import PuppetDocs.Proofs.Docs.Subjects
import PuppetDocs.Proofs.Findings.Search
import PuppetDocs.Proofs.Findings.Metadata
import PuppetDocs.Proofs.Findings.TypeBody
import PuppetDocs.Proofs.Text.LineStarts
import PuppetDocs.Proofs.Findings.EnumType
import PuppetDocs.Proofs.Run.ParamDocs
import PuppetDocs.Proofs.Manifest.Signature
