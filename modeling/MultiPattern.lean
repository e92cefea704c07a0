import MultiPattern.Alphabet
import MultiPattern.Automaton.Compile
import MultiPattern.Automaton.Drawing
import MultiPattern.Search
import MultiPattern.Search.Outline
import MultiPattern.Proofs.Words
import MultiPattern.Proofs.Strings
import MultiPattern.Proofs.Numbering
import MultiPattern.Proofs.Insertion
import MultiPattern.Proofs.Pruning
import MultiPattern.Proofs.Lexicon
import MultiPattern.Proofs.Levels
import MultiPattern.Proofs.VisitingOrder
import MultiPattern.Proofs.Linking
import MultiPattern.Proofs.QueueOrder
import MultiPattern.Proofs.Queue
import MultiPattern.Proofs.Rounds
import MultiPattern.Proofs.Scan
import MultiPattern.Proofs.Likeness
import MultiPattern.Proofs.Folding
import MultiPattern.Proofs.Leftmost
import MultiPattern.Proofs.Standard
import MultiPattern.Proofs.LastMatch
import MultiPattern.Proofs.FirstMatch
import MultiPattern.Proofs.Checked
import MultiPattern.Proofs.Survivors
import MultiPattern.Proofs.Paths
import MultiPattern.Proofs.PrefixTree
import MultiPattern.Proofs.CodePoints
import MultiPattern.Proofs.Letters
import MultiPattern.Proofs.Events
import MultiPattern.Proofs.Legible
import MultiPattern.Proofs.Drawing
import MultiPattern.Proofs.Pauses
import MultiPattern.Proofs.Falls
import MultiPattern.Proofs.Restarts
