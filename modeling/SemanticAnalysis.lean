import SemanticAnalysis.Compilation
import SemanticAnalysis.Draft
import SemanticAnalysis.Memo.Script
import SemanticAnalysis.Proofs.Typing.Backing
import SemanticAnalysis.Proofs.Compilation.Failure
import SemanticAnalysis.Proofs.Effects.Purity
import SemanticAnalysis.Proofs.Lexical.Resolution
import SemanticAnalysis.Proofs.Running
import SemanticAnalysis.Proofs.Session.Termination
import SemanticAnalysis.Session
import SemanticAnalysis.Types.Remembering
import SemanticAnalysis.Proofs.Typing.Runs
import SemanticAnalysis.Proofs.Analysis.Claims
import SemanticAnalysis.Proofs.Compilation.Completion
import SemanticAnalysis.Proofs.Session.Repetition
import SemanticAnalysis.Proofs.Typing.Coherence
import SemanticAnalysis.Proofs.Types.Applicability
import SemanticAnalysis.Proofs.Typing.Dispatch
import SemanticAnalysis.Proofs.Typing.Faults
import SemanticAnalysis.Proofs.Compilation.Topics
import SemanticAnalysis.Proofs.Compilation.Accounting
import SemanticAnalysis.Proofs.Types.Remembering
import SemanticAnalysis.Proofs.Construction.Sealing
import SemanticAnalysis.Proofs.Analysis.Records
import SemanticAnalysis.Proofs.Session.Constancy
import SemanticAnalysis.Proofs.Typing.Ranked
import SemanticAnalysis.Proofs.Effects.Promises
import SemanticAnalysis.Proofs.Session.Order
import SemanticAnalysis.Proofs.Rewording.Basic
import SemanticAnalysis.Proofs.Rewording.Construction
import SemanticAnalysis.Proofs.Rewording.Logic
import SemanticAnalysis.Proofs.Rewording.Analysis
import SemanticAnalysis.Proofs.Rewording.Compilation
import SemanticAnalysis.Proofs.Compilation.Reporting
import SemanticAnalysis.Proofs.Compilation.Parentheses
import SemanticAnalysis.Proofs.Scope.Alignment
import SemanticAnalysis.Proofs.Compilation.BuiltinImport
import SemanticAnalysis.Proofs.Rewording.Claims
import SemanticAnalysis.Proofs.Compilation.Verdicts
import SemanticAnalysis.Proofs.Scope.Rooted
import SemanticAnalysis.Proofs.Typing.Overloads
import SemanticAnalysis.Proofs.Construction.WellFormed
import SemanticAnalysis.Proofs.Session.Phases
import SemanticAnalysis.Proofs.Types.Ascent
import SemanticAnalysis.Proofs.Typing.Specificity
import SemanticAnalysis.Proofs.Typing.Returns
import SemanticAnalysis.Proofs.Compilation.Circles
import SemanticAnalysis.Proofs.Scope.Undisturbed
import SemanticAnalysis.Proofs.Session.Members
import SemanticAnalysis.Proofs.Scope.Stock
import SemanticAnalysis.Proofs.Construction.Stock
import SemanticAnalysis.Proofs.Lexical.Visibility
import SemanticAnalysis.Proofs.Scope.Boundary
import SemanticAnalysis.Proofs.Effects.Widening
import SemanticAnalysis.Proofs.Drafting.Numbering
import SemanticAnalysis.Proofs.Effects.Sites
import SemanticAnalysis.Proofs.Lexical.ModuleNames
import SemanticAnalysis.Proofs.Nesting
