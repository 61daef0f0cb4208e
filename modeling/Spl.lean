import Spl.Diagnostic.Outline
import Spl.Main
import Spl.Proofs.Fresh
import Spl.Proofs.Parser.Freshness
import Spl.Proofs.Scope.Nearest
import Spl.Proofs.Settling
import Spl.Proofs.Typing.Rules
import Spl.Proofs.Typing.Checker
import Spl.Proofs.Typing.Bodies
import Spl.Proofs.Program.Building
import Spl.Proofs.Typing.Acceptance
import Spl.Proofs.Typing.Placement
import Spl.Proofs.Syntax.Rules
import Spl.Proofs.Syntax.Standard
import Spl.Proofs.Parser.Steps
import Spl.Proofs.Parser.Runs
import Spl.Proofs.Parser.Reactions
import Spl.Proofs.Parser.Soundness
import Spl.Proofs.Parser.Completeness
import Spl.Proofs.Parser.Acceptance
import Spl.Proofs.Parser.Progress
import Spl.Proofs.Parser.Binding
import Spl.Proofs.Parser.EarliestError
import Spl.Proofs.Token.Lexing
import Spl.Proofs.Safety
import Spl.Proofs.Annotation.Erasure
import Spl.Proofs.Scope.Contents
import Spl.Proofs.TypeExpr.Resolved
import Spl.Proofs.Program.Entering
import Spl.Proofs.Scope.Library
import Spl.Proofs.Program.WellDeclared
import Spl.Proofs.Program.Accepted
import Spl.Proofs.Program.Layout
import Spl.Proofs.Typing.Nominal
import Spl.Proofs.Annotation.Evaluation
import Spl.Proofs.Annotation.Discipline
import Spl.Proofs.Annotation.Diagnosis
import Spl.Proofs.Text.Lines
import Spl.Proofs.Text.Places
import Spl.Proofs.Typing.Calls
import Spl.Proofs.Token.Value
import Spl.Proofs.Parser.Sizes
import Spl.Proofs.Diagnostic.Caret
import Spl.Proofs.Diagnostic.Pointing
import Spl.Proofs.Token.Tiling
import Spl.Proofs.Token.Spacing
import Spl.Proofs.Token.Joining
import Spl.Proofs.Token.Touching
import Spl.Proofs.Syntax.Printer
import Spl.Proofs.Syntax.RoundTrip
import Spl.Proofs.TypeExpr.Spelling
import Spl.Proofs.Invariance
import Spl.Proofs.Separation
import Spl.Proofs.Renaming
import Spl.Proofs.Extension
import Spl.Proofs.Reordering
import Spl.Proofs.Program.Redeclaring
import Spl.Proofs.Scope.History
import Spl.Proofs.Dump
import Spl.Proofs.Driving
