import Prune.Agent
import Prune.Condition.Basic
import Prune.Condition.Expr
import Prune.Config.Load
import Prune.Define
import Prune.Evaluator
import Prune.FileTree
import Prune.Glob.Pattern
import Prune.Glob.Search
import Prune.Json.Printer
import Prune.Json.Reader
import Prune.Main
import Prune.Number.Decimal
import Prune.Process
import Prune.Project
import Prune.Proofs.Comments
import Prune.Proofs.Condition.Chains
import Prune.Proofs.Condition.Definitions
import Prune.Proofs.Condition.Formula
import Prune.Proofs.Condition.Parentheses
import Prune.Proofs.Condition.Searches
import Prune.Proofs.Condition.Spelling
import Prune.Proofs.Condition.Symbols
import Prune.Proofs.Directive.Names
import Prune.Proofs.Directive.Rendering
import Prune.Proofs.Edit.Application
import Prune.Proofs.Edit.BlankLines
import Prune.Proofs.Edit.Lines
import Prune.Proofs.Edit.Pieces
import Prune.Proofs.Edit.Standing
import Prune.Proofs.Edit.Untouched
import Prune.Proofs.Elision.Arrays
import Prune.Proofs.Elision.Changes
import Prune.Proofs.Elision.Coverage
import Prune.Proofs.Elision.Deletions
import Prune.Proofs.Elision.Elements
import Prune.Proofs.Elision.Isolation
import Prune.Proofs.Elision.Likeness
import Prune.Proofs.Elision.Lists
import Prune.Proofs.Elision.Parting
import Prune.Proofs.Elision.Pruning
import Prune.Proofs.Elision.Results
import Prune.Proofs.Elision.Rows
import Prune.Proofs.Elision.Searches
import Prune.Proofs.Elision.Staying
import Prune.Proofs.Elision.Thinning
import Prune.Proofs.Mark
import Prune.Proofs.Number.Decimals
import Prune.Proofs.Number.Doubles
import Prune.Proofs.Number.Integers
import Prune.Proofs.Number.Rounding
import Prune.Proofs.Number.Shortest
import Prune.Proofs.Number.Texts
import Prune.Proofs.Outcome
import Prune.Proofs.Program.Basic
import Prune.Proofs.Program.Cutting
import Prune.Proofs.Program.Deletions
import Prune.Proofs.Program.Lines
import Prune.Proofs.Program.Nesting
import Prune.Proofs.Program.Orderly
import Prune.Proofs.Program.Output
import Prune.Proofs.Program.Reading
import Prune.Proofs.Program.Simple
import Prune.Proofs.Project.Building
import Prune.Proofs.Project.Ignores
import Prune.Proofs.Project.Settings
import Prune.Proofs.Reparse
import Prune.Proofs.Resolver.Coverage
import Prune.Proofs.Resolver.Discipline
import Prune.Proofs.Resolver.Evaluators
import Prune.Proofs.Resolver.Geometry
import Prune.Proofs.Resolver.Nesting
import Prune.Proofs.Resolver.Openers
import Prune.Proofs.Resolver.Recognition
import Prune.Proofs.Resolver.Strays
import Prune.Proofs.Source.Calls
import Prune.Proofs.Source.Layout
import Prune.Proofs.Source.Lexing
import Prune.Proofs.Source.Operands
import Prune.Proofs.Source.Parentheses
import Prune.Proofs.Source.Reading
import Prune.Proofs.Source.Scripts
import Prune.Proofs.Source.Successes
import Prune.Proofs.Switches
import Prune.Proofs.Text.Encodings
import Prune.Proofs.Text.Lines
import Prune.Proofs.Text.Offsets
import Prune.Proofs.Text.Words
import Prune.Proofs.Value.Comparison
import Prune.Proofs.Value.NumberText
import Prune.Report
import Prune.Resolver
import Prune.Scan
import Prune.Session
import Prune.Source.Grammar.Basic
import Prune.Source.Grammar.Expressions
import Prune.Source.Grammar.Functions
import Prune.Source.Grammar.Markup
import Prune.Source.Grammar.Patterns
import Prune.Source.Grammar.Statements
import Prune.Source.Grammar.Targets
import Prune.Source.Grammar.Types
import Prune.Source.Lexer
import Prune.Source.Parse
import Prune.Source.Tree
import Prune.Text.Blank
import Prune.Text.Case
import Prune.Text.Letters
import Prune.Text.Units
import Prune.Value.Compare
