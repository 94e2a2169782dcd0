import ShiftReduce.Table.Basic
import ShiftReduce.Text.LineTable
import ShiftReduce.Text.Quoted
import ShiftReduce.Regex.BuiltIn
import ShiftReduce.Lexer.Trace
import ShiftReduce.Tree.Splice
import ShiftReduce.Parser.Report
import ShiftReduce.Definition.Basic
import ShiftReduce.Journal.Building
import ShiftReduce.Journal.Reading
import ShiftReduce.Proofs.Grammar.Augmentation
import ShiftReduce.Proofs.Automaton.Canonical
import ShiftReduce.Proofs.Automaton.Merging
import ShiftReduce.Proofs.Grammar.Productive
import ShiftReduce.Proofs.Lexer.Reading
import ShiftReduce.Proofs.Parser.Agreement
import ShiftReduce.Proofs.Parser.Termination
import ShiftReduce.Proofs.Grammar.Firsts
import ShiftReduce.Proofs.Parser.Safety
import ShiftReduce.Proofs.Grammar.Sentences
import ShiftReduce.Proofs.Parser.Refusals
import ShiftReduce.Proofs.Definition.Interpretation
import ShiftReduce.Proofs.Definition.Flattening
import ShiftReduce.Proofs.Definition.Meaning
import ShiftReduce.Proofs.Definition.Solution
import ShiftReduce.Proofs.Definition.Shape
import ShiftReduce.Proofs.Lexer.Segmentation
import ShiftReduce.Proofs.Grammar.Edits
import ShiftReduce.Proofs.Grammar.Freshness
import ShiftReduce.Proofs.Parser.Acceptance
import ShiftReduce.Proofs.Grammar.Follow
import ShiftReduce.Proofs.Grammar.Exactness
import ShiftReduce.Proofs.Grammar.Followers
import ShiftReduce.Proofs.Grammar.Rightmost
import ShiftReduce.Proofs.Grammar.Handles
import ShiftReduce.Proofs.Automaton.ValidItems
import ShiftReduce.Proofs.Automaton.Quotient
import ShiftReduce.Proofs.Table.Conflicts
import ShiftReduce.Proofs.Automaton.LeastClosure
import ShiftReduce.Proofs.Automaton.Collection
import ShiftReduce.Proofs.Automaton.Lookaheads
import ShiftReduce.Proofs.Table.Merging
import ShiftReduce.Proofs.Parser.Accounting
import ShiftReduce.Proofs.Grammar.Rejections
import ShiftReduce.Proofs.Definition.Admission
import ShiftReduce.Proofs.Text.Positions
import ShiftReduce.Proofs.Lexer.Extension
import ShiftReduce.Proofs.Lexer.Precedence
import ShiftReduce.Proofs.Lexer.Recognition
import ShiftReduce.Proofs.Lexer.Modes
import ShiftReduce.Proofs.Tree.Walks
