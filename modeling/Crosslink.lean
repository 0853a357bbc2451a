import Crosslink.Main
import Crosslink.Registry.Cached
import Crosslink.Proofs.Convergence
import Crosslink.Proofs.Pruning
import Crosslink.Proofs.Slices
import Crosslink.Proofs.Cutting
import Crosslink.Proofs.Nesting
import Crosslink.Proofs.Insertion
import Crosslink.Proofs.Operands
import Crosslink.Proofs.Slots
import Crosslink.Proofs.Ranges
import Crosslink.Proofs.Arguments
import Crosslink.Proofs.Sites
import Crosslink.Proofs.Grafts
import Crosslink.Proofs.Seams
import Crosslink.Proofs.Parting
import Crosslink.Proofs.Blocks
import Crosslink.Proofs.Planting
import Crosslink.Proofs.Beginnings
import Crosslink.Proofs.Frames
import Crosslink.Proofs.Changes
import Crosslink.Proofs.Sequences
import Crosslink.Proofs.Excerpts
import Crosslink.Proofs.Rehearsal
import Crosslink.Proofs.Brackets
import Crosslink.Proofs.Entries
import Crosslink.Proofs.Chains
import Crosslink.Proofs.Collecting
import Crosslink.Proofs.Passing
import Crosslink.Proofs.Dropping
import Crosslink.Proofs.Declaring
import Crosslink.Proofs.Composing
import Crosslink.Proofs.Amending
import Crosslink.Proofs.Relocating
import Crosslink.Proofs.Injecting
import Crosslink.Proofs.Restoring
import Crosslink.Proofs.Stretches
import Crosslink.Proofs.Members
import Crosslink.Proofs.Splicing
import Crosslink.Proofs.Hunks
import Crosslink.Proofs.Partition
import Crosslink.Proofs.Headers
import Crosslink.Proofs.Quoting
import Crosslink.Proofs.Engraving
import Crosslink.Proofs.Bodies
import Crosslink.Proofs.Inscribing
import Crosslink.Proofs.Outlines
import Crosslink.Proofs.Crossing
import Crosslink.Proofs.Margins
import Crosslink.Proofs.Berths
import Crosslink.Proofs.References
import Crosslink.Proofs.Agreement
import Crosslink.Proofs.Naming
import Crosslink.Proofs.Canonical
import Crosslink.Proofs.Grammar
import Crosslink.Proofs.Tallies
import Crosslink.Proofs.Surviving
import Crosslink.Proofs.Conflicts
import Crosslink.Proofs.Recovering
import Crosslink.Proofs.Granting
import Crosslink.Proofs.Retracing
import Crosslink.Proofs.Bypassing
import Crosslink.Proofs.Thinning
import Crosslink.Proofs.Trimming
import Crosslink.Proofs.Shedding
import Crosslink.Proofs.Detaching
import Crosslink.Proofs.Unlinking
import Crosslink.Proofs.Removals
import Crosslink.Proofs.Matching
import Crosslink.Proofs.Repetitions
import Crosslink.Proofs.Views
import Crosslink.Proofs.Covering
import Crosslink.Proofs.Scanning
import Crosslink.Proofs.Rearranging
import Crosslink.Proofs.Namespaces
import Crosslink.Proofs.Searching
import Crosslink.Proofs.Wildcards
import Crosslink.Proofs.Gathering
import Crosslink.Proofs.Comments
import Crosslink.Proofs.Checked.Editors
import Crosslink.Proofs.Positions
import Crosslink.Proofs.Literals
import Crosslink.Proofs.Titles
import Crosslink.Proofs.Statements
import Crosslink.Proofs.Confining
import Crosslink.Proofs.Recognizing
import Crosslink.Proofs.Keeping
import Crosslink.Proofs.Batches
import Crosslink.Proofs.Selecting
import Crosslink.Proofs.Dividing
import Crosslink.Proofs.Enclosing
import Crosslink.Proofs.Inlays
