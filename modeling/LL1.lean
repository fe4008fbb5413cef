import LL1.Analysis.First
import LL1.Analysis.Follow
import LL1.Analysis.Memo
import LL1.Analysis.Nullable
import LL1.Analysis.Prediction
import LL1.Analysis.SetFamily
import LL1.Analysis.Settling
import LL1.Analysis.Table
import LL1.Command.Options
import LL1.Command.Response
import LL1.Grammar.Basic
import LL1.Grammar.NonTerminal
import LL1.Grammar.Rule
import LL1.Language.Derivation
import LL1.Language.Meaning
import LL1.Language.Tree
import LL1.Main
import LL1.Recogniser.Machine
import LL1.Recogniser.Run
import LL1.Recogniser.Trace
import LL1.Report.Location
import LL1.Rewriting.Elimination
import LL1.Rewriting.Factoring
import LL1.Rewriting.LeftRecursion
import LL1.Rewriting.Notice
import LL1.Rewriting.Step
import LL1.Sentence.ChaCha
import LL1.Sentence.Growth
import LL1.Sentence.Height
import LL1.Sentence.RandomWords
import LL1.Sentence.Tree
import LL1.Source.Fault
import LL1.Source.Line
import LL1.Source.Loading
import LL1.Store.Basic
import LL1.Store.Calls
import LL1.Store.Head
import LL1.Store.Worklist
import LL1.Symbol.Basic
import LL1.Symbol.Supply
import LL1.Symbol.SymbolSet
import LL1.Symbol.Uppercase
import LL1.Text.Blank
import LL1.Text.Columns
import LL1.Text.Lines
import LL1.Workspace.Basic
import LL1.Workspace.Event
import LL1.Proofs.Grammar.WellFormed
import LL1.Proofs.Grammar.Grouping
import LL1.Proofs.Source.Line
import LL1.Proofs.Source.Reading
import LL1.Proofs.Source.Loading
import LL1.Proofs.Grammar.Loading
import LL1.Proofs.Language.Meaning
import LL1.Proofs.Rewriting.Replacement
import LL1.Proofs.Rewriting.Factoring
import LL1.Proofs.Rewriting.Unrolling
import LL1.Proofs.Rewriting.Step
import LL1.Proofs.Symbol.Supply
import LL1.Proofs.Rewriting.Elimination
import LL1.Proofs.Analysis.First
import LL1.Proofs.Analysis.Sentences
import LL1.Proofs.Analysis.Follow
import LL1.Proofs.Analysis.Prediction
import LL1.Proofs.Analysis.Separation
import LL1.Proofs.Workspace.Reached
import LL1.Proofs.Workspace.Solved
import LL1.Proofs.Recogniser.Run
import LL1.Proofs.Recogniser.Stack
import LL1.Proofs.Recogniser.Soundness
import LL1.Proofs.Recogniser.Leftmost
import LL1.Proofs.Recogniser.Termination
import LL1.Proofs.Recogniser.Prefix
import LL1.Proofs.Language.Yield
import LL1.Proofs.Language.Tree
import LL1.Proofs.Recogniser.Opening
import LL1.Proofs.Recogniser.Completeness
import LL1.Proofs.Recogniser.Guard
import LL1.Proofs.Workspace.Processed
import LL1.Proofs.Workspace.History
import LL1.Proofs.Workspace.Recognised
import LL1.Proofs.Workspace.Unambiguous
import LL1.Proofs.Workspace.LeftRecursion
import LL1.Proofs.Workspace.Separation
import LL1.Proofs.Workspace.Traced
import LL1.Proofs.Workspace.Rejected
import LL1.Proofs.Rewriting.NormalForm
import LL1.Proofs.Rewriting.Separation
import LL1.Proofs.Rewriting.Separation.Factoring
import LL1.Proofs.Rewriting.Separation.Replacement
import LL1.Proofs.Rewriting.Separation.Unrolling
import LL1.Proofs.Workspace.InOrder
import LL1.Proofs.Sentence.Height
import LL1.Proofs.Sentence.Growth
import LL1.Proofs.Sentence.Depth
import LL1.Proofs.Sentence.Choices
import LL1.Proofs.Sentence.RandomWords
import LL1.Proofs.Workspace.Grown
import LL1.Proofs.Analysis.Table
import LL1.Proofs.Source.Printing
import LL1.Proofs.Text.Lines
import LL1.Proofs.Source.File
import LL1.Proofs.Workspace.Printed
import LL1.Proofs.Analysis.Conflicts
import LL1.Proofs.Workspace.Predicted
import LL1.Proofs.Rewriting.Weight.Factoring
import LL1.Proofs.Rewriting.Weight.Unrolling
import LL1.Proofs.Rewriting.Draws
import LL1.Proofs.Workspace.Preparation
import LL1.Proofs.Rewriting.Outcome
import LL1.Proofs.Rewriting.Outcome.Factoring
import LL1.Proofs.Symbol.Pool
import LL1.Proofs.Text.Columns
import LL1.Proofs.Recogniser.Nesting
import LL1.Proofs.Workspace.Running
import LL1.Proofs.Analysis.CallStack
import LL1.Proofs.Workspace.Terminating
import LL1.Proofs.Store.Worklist
import LL1.Proofs.Store.Represents
import LL1.Proofs.Store.Grid
import LL1.Proofs.Store.Coherent
