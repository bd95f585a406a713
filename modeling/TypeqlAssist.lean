import TypeqlAssist.Kind
import TypeqlAssist.Text.Bytes
import TypeqlAssist.Text.Extending
import TypeqlAssist.Token
import TypeqlAssist.Token.Lexer
import TypeqlAssist.Token.Scanner
import TypeqlAssist.Json.Basic
import TypeqlAssist.Json.Reader
import TypeqlAssist.Json.Printer
import TypeqlAssist.Tree.Basic
import TypeqlAssist.Tree.Location
import TypeqlAssist.Tree.Builder
import TypeqlAssist.Tree.Arena
import TypeqlAssist.Tree.Arena.Builder
import TypeqlAssist.Grammar.Fault
import TypeqlAssist.Grammar.Rule
import TypeqlAssist.Grammar.Productions
import TypeqlAssist.Document
import TypeqlAssist.Directory
import TypeqlAssist.Distinct
import TypeqlAssist.Completion.Candidate
import TypeqlAssist.Completion.KeywordSet
import TypeqlAssist.Completion.Generator
import TypeqlAssist.Completion.Dispatch
import TypeqlAssist.Completion.Word
import TypeqlAssist.Completion.Pattern
import TypeqlAssist.Completion.Result
import TypeqlAssist.Completion.Stored
import TypeqlAssist.Schema.Catalog
import TypeqlAssist.Schema.Basic
import TypeqlAssist.Schema.Extract
import TypeqlAssist.Schema.Stored
import TypeqlAssist.Text.Blank
import TypeqlAssist.Text.Lines
import TypeqlAssist.Text.Printable
import TypeqlAssist.Text.Unprinted
import TypeqlAssist.Text.Quoted
import TypeqlAssist.Decimal.Binary
import TypeqlAssist.Decimal.Layout
import TypeqlAssist.Decimal.Shortest
import TypeqlAssist.Editor.Position
import TypeqlAssist.Editor.Diagnostic
import TypeqlAssist.Editor.Config
import TypeqlAssist.Editor.Item
import TypeqlAssist.Editor.Engine
import TypeqlAssist.Editor.Session
import TypeqlAssist.Cases.Case
import TypeqlAssist.Cases.Dedent
import TypeqlAssist.Cases.Reader
import TypeqlAssist.Cases.Cursor
import TypeqlAssist.Cases.Verdict
import TypeqlAssist.Cases.Assertion
import TypeqlAssist.Cases.Sample
import TypeqlAssist.Editor.Wire
import TypeqlAssist.CommandLine
import TypeqlAssist.Main
import TypeqlAssist.Proofs.Distinct
import TypeqlAssist.Proofs.Token.Spacing
import TypeqlAssist.Proofs.Tree.Layout
import TypeqlAssist.Proofs.Tree.Contents
import TypeqlAssist.Proofs.Grammar.Reading
import TypeqlAssist.Proofs.Grammar.Guards
import TypeqlAssist.Proofs.Grammar.Gaps
import TypeqlAssist.Proofs.Grammar.Placement
import TypeqlAssist.Proofs.Document.Structure
import TypeqlAssist.Proofs.Grammar.Acceptance
import TypeqlAssist.Proofs.Grammar.Phrase
import TypeqlAssist.Proofs.Grammar.Yielding
import TypeqlAssist.Proofs.Grammar.Covering
import TypeqlAssist.Proofs.Grammar.Soundness
import TypeqlAssist.Proofs.Document.Recognition
import TypeqlAssist.Proofs.Token.Lexeme
import TypeqlAssist.Proofs.Tree.Cursor
import TypeqlAssist.Proofs.Grammar.Inner
import TypeqlAssist.Proofs.Document.Cursor
import TypeqlAssist.Proofs.Document.Stages
import TypeqlAssist.Proofs.Document.Parents
import TypeqlAssist.Proofs.Token.Joining
import TypeqlAssist.Proofs.Token.Exchange
import TypeqlAssist.Proofs.Token.Isolation
import TypeqlAssist.Proofs.Grammar.Likeness
import TypeqlAssist.Proofs.Grammar.Recasting
import TypeqlAssist.Proofs.Grammar.Shifting
import TypeqlAssist.Proofs.Grammar.Progress
import TypeqlAssist.Proofs.Grammar.Continuing
import TypeqlAssist.Proofs.Grammar.Settling
import TypeqlAssist.Proofs.Grammar.Hosts
import TypeqlAssist.Proofs.Grammar.Diverging
import TypeqlAssist.Proofs.Grammar.Turns
import TypeqlAssist.Proofs.Grammar.Strays
import TypeqlAssist.Proofs.Document.Composition
import TypeqlAssist.Proofs.Document.Typing
import TypeqlAssist.Proofs.Grammar.Height
import TypeqlAssist.Proofs.Document.Nesting
import TypeqlAssist.Proofs.Grammar.Cost
import TypeqlAssist.Proofs.Document.Termination
import TypeqlAssist.Proofs.Completion.Words
import TypeqlAssist.Proofs.Document.Reformatting
import TypeqlAssist.Proofs.Completion.Scenarios
import TypeqlAssist.Proofs.Completion.Stability
import TypeqlAssist.Proofs.Completion.Offers
import TypeqlAssist.Proofs.Completion.Clauses
import TypeqlAssist.Proofs.Completion.Recasting
import TypeqlAssist.Proofs.Completion.Redefinition
import TypeqlAssist.Proofs.Completion.Replacement
import TypeqlAssist.Proofs.Completion.Frontier
import TypeqlAssist.Proofs.Completion.Trailing
import TypeqlAssist.Proofs.Completion.Typing
import TypeqlAssist.Proofs.Completion.Assignments
import TypeqlAssist.Proofs.Completion.Continuation
import TypeqlAssist.Proofs.Schema.Changes
import TypeqlAssist.Proofs.Schema.Declaration
import TypeqlAssist.Proofs.Schema.Edges
import TypeqlAssist.Proofs.Arena.Linking
import TypeqlAssist.Proofs.Arena.Coherence
import TypeqlAssist.Proofs.Arena.Storage
import TypeqlAssist.Proofs.Arena.Walks
import TypeqlAssist.Proofs.Arena.Agreement
import TypeqlAssist.Proofs.Editor.Position
import TypeqlAssist.Proofs.Editor.Edits
import TypeqlAssist.Proofs.Editor.Ranking
import TypeqlAssist.Proofs.Editor.Marks
import TypeqlAssist.Proofs.Editor.Diagnostics
import TypeqlAssist.Proofs.Editor.Snippets
import TypeqlAssist.Proofs.Token.LineBreaks
import TypeqlAssist.Proofs.Token.Slices
import TypeqlAssist.Proofs.Token.Encoding
import TypeqlAssist.Proofs.Token.Scanning
import TypeqlAssist.Proofs.Token.Partition
import TypeqlAssist.Proofs.Cases.Lines
import TypeqlAssist.Proofs.Cases.Steps
import TypeqlAssist.Proofs.Cases.Separation
import TypeqlAssist.Proofs.Cases.Indentation
