import Chance.Main
import Chance.Proofs.Machine.Safety
import Chance.Proofs.Printing.Precedence
import Chance.Proofs.Machine.Addresses
import Chance.Proofs.Enumeration.Failing
import Chance.Proofs.Renaming.Invariance
import Chance.Proofs.Syntax.Spines
import Chance.Proofs.Editing.DeadReturns
import Chance.Proofs.Enumeration.Likely
import Chance.Proofs.Enumeration.Drawing
import Chance.Proofs.Syntax.Firsts
import Chance.Proofs.Machine.Loops
import Chance.Proofs.Enumeration.Order
import Chance.Proofs.Reading.Failures
import Chance.Proofs.Syntax.Scoping
