import Rulebook.Proofs.Absence
import Rulebook.Proofs.Blanks
import Rulebook.Proofs.Chains
import Rulebook.Proofs.Conditions
import Rulebook.Proofs.Connectives
import Rulebook.Proofs.Cuts
import Rulebook.Proofs.Display
import Rulebook.Proofs.Dotted
import Rulebook.Proofs.Drafts
import Rulebook.Proofs.Draws
import Rulebook.Proofs.Evaluation
import Rulebook.Proofs.Extension
import Rulebook.Proofs.Faults
import Rulebook.Proofs.FieldTests
import Rulebook.Proofs.Firing.Commuting
import Rulebook.Proofs.Firing.Idle
import Rulebook.Proofs.Honesty
import Rulebook.Proofs.Identity
import Rulebook.Proofs.LexicalFaults
import Rulebook.Proofs.Mismatches
import Rulebook.Proofs.Origins
import Rulebook.Proofs.Overwriting
import Rulebook.Proofs.Parsing
import Rulebook.Proofs.Parsing.Depth
import Rulebook.Proofs.Paths
import Rulebook.Proofs.Reckoning
import Rulebook.Proofs.Registry
import Rulebook.Proofs.Trailing
import Rulebook.Proofs.Transitivity
import Rulebook.Proofs.Trichotomy
import Rulebook.Proofs.Writing
import Rulebook.Session
