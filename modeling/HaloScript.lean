import HaloScript.Casebook.Case
import HaloScript.Main
import HaloScript.Proofs.Carets
import HaloScript.Proofs.Casebook.Dumps
import HaloScript.Proofs.Casebook.Matching
import HaloScript.Proofs.Constant.Equality
import HaloScript.Proofs.Lowering.Complete
import HaloScript.Proofs.Lowering.Counters
import HaloScript.Proofs.Lowering.Ownership
import HaloScript.Proofs.Lowering.Refusals
import HaloScript.Proofs.Lowering.Removal
import HaloScript.Proofs.Lowering.Statements
import HaloScript.Proofs.Lowering.Twice
import HaloScript.Proofs.NameTable
import HaloScript.Proofs.ReadBack
import HaloScript.Proofs.Redeclaration
import HaloScript.Proofs.Walk.Visits
import HaloScript.Proofs.Walk.Worklist
import HaloScript.Session
