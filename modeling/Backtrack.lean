import Backtrack.Json
import Backtrack.Proofs.DoStyle
import Backtrack.Proofs.Json.Exact
import Backtrack.Proofs.Labels
import Backtrack.Proofs.Peg.Runs
import Backtrack.Proofs.Rest
import Backtrack.Proofs.TextItems
import Backtrack.Proofs.Unlabelled
import Backtrack.Recipe.Session
import Backtrack.Script
import Backtrack.Proofs.Suffix
import Backtrack.Proofs.History
import Backtrack.Proofs.Lossless
import Backtrack.Proofs.Grapheme.Cores
import Backtrack.Proofs.Grapheme.Kinds
import Backtrack.Proofs.Grapheme.Grammar
import Backtrack.Proofs.Grapheme.Exact
import Backtrack.Proofs.ComesTo
import Backtrack.Proofs.Repetition
import Backtrack.Proofs.Separators
import Backtrack.Proofs.Alternatives
import Backtrack.Proofs.Recovery.Moments
import Backtrack.Proofs.Recovery.Discipline
import Backtrack.Proofs.Sequences
import Backtrack.Proofs.Termination.Loops
import Backtrack.Proofs.Termination.Repetition
import Backtrack.Proofs.Termination.Calls
import Backtrack.Proofs.Termination.Descent
import Backtrack.Proofs.Termination.Grammars
import Backtrack.Proofs.Script.Lexemes
import Backtrack.Proofs.Script.Words
import Backtrack.Proofs.Literal
import Backtrack.Proofs.Regex.Groups
import Backtrack.Proofs.Grapheme.Partition
import Backtrack.Proofs.Rules.Owners
import Backtrack.Proofs.Script.Trailing
import Backtrack.Proofs.Script.Strings
import Backtrack.Proofs.SymbolSets
import Backtrack.Proofs.Json.Surrogates
import Backtrack.Proofs.Counting
import Backtrack.Proofs.Sink.Shortest
