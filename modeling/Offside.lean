import Offside.Source.Reader
import Offside.Main
import Offside.Proofs.Assembly
import Offside.Proofs.Grammar
import Offside.Proofs.Context
import Offside.Proofs.Deeds
import Offside.Proofs.Tracking
import Offside.Proofs.Closing
import Offside.Proofs.Soundness
import Offside.Proofs.Leading
import Offside.Proofs.Completeness
import Offside.Proofs.Forest
import Offside.Proofs.Ownership
import Offside.Proofs.Recognition
import Offside.Proofs.Bounded
import Offside.Proofs.Discipline
import Offside.Proofs.Alphabet
import Offside.Proofs.Lexicon
import Offside.Proofs.Munch
import Offside.Proofs.Chunks
import Offside.Proofs.Schema
import Offside.Proofs.Frontier
import Offside.Proofs.Faults
import Offside.Proofs.Capacity
import Offside.Proofs.Words
import Offside.Proofs.Printing
import Offside.Proofs.Growth
import Offside.Proofs.Lockstep
import Offside.Proofs.Abreast
import Offside.Proofs.Framing
import Offside.Proofs.Relaid
import Offside.Proofs.Shown
import Offside.Proofs.Reindent
import Offside.Proofs.LineEnds
import Offside.Proofs.Splicing
import Offside.Proofs.Moved
import Offside.Proofs.Enclosing
import Offside.Proofs.Alignment
import Offside.Proofs.Partition
import Offside.Proofs.Boundaries
import Offside.Proofs.Lookahead
import Offside.Proofs.Foresight
import Offside.Proofs.Head
import Offside.Proofs.Sentinel
import Offside.Proofs.Requests
import Offside.Proofs.Lines
import Offside.Proofs.Topics
import Offside.Proofs.Nesting
import Offside.Proofs.Sifting
import Offside.Proofs.Keywords
import Offside.Proofs.Progress
import Offside.Proofs.Pairs
import Offside.Proofs.Brackets
import Offside.Proofs.Diagnosis
import Offside.Proofs.Blank
import Offside.Proofs.Levels
import Offside.Proofs.Faithful
import Offside.Proofs.Reports
import Offside.Proofs.Padding
import Offside.Proofs.Slots
import Offside.Proofs.Encoding
import Offside.Proofs.Previews
