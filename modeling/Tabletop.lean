import Tabletop.Main
import Tabletop.Proofs.Dice.Trace
import Tabletop.Proofs.Limits
import Tabletop.Proofs.Notation.RoundTrip
import Tabletop.Proofs.Notation.Normalized
import Tabletop.Proofs.Notation.Viable
import Tabletop.Proofs.Notation.Spacing
import Tabletop.Proofs.Dice.Exact
import Tabletop.Proofs.Dice.Showing
import Tabletop.Proofs.Dice.Balance
import Tabletop.Proofs.Dice.Conservation
import Tabletop.Proofs.Dice.Bound
import Tabletop.Proofs.Narrative.Counting
import Tabletop.Proofs.Narrative.Spelling
import Tabletop.Proofs.Narrative.Writing
import Tabletop.Proofs.Narrative.RoundTrip
import Tabletop.Proofs.Narrative.Charges
import Tabletop.Proofs.Narrative.Gap
import Tabletop.Proofs.Narrative.Ceiling
import Tabletop.Proofs.Narrative.Naming
import Tabletop.Proofs.Narrative.Groups
import Tabletop.Proofs.Narrative.Counters
import Tabletop.Proofs.Narrative.Splitting
import Tabletop.Proofs.Dice.Independence
import Tabletop.Proofs.Dice.Chains
import Tabletop.Proofs.Dice.Rerolling
import Tabletop.Proofs.Dice.Compounding
import Tabletop.Proofs.Dice.Exploding
import Tabletop.Proofs.Dice.LoneExplosion
import Tabletop.Proofs.Dice.Selecting
import Tabletop.Proofs.Dice.Checking
import Tabletop.Proofs.Dice.Ending
import Tabletop.Proofs.Dice.Agreement
import Tabletop.Proofs.Dice.Counting
import Tabletop.Proofs.Dice.Dividing
import Tabletop.Proofs.Dice.Plain
import Tabletop.Proofs.Substitution
