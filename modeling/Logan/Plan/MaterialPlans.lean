import Logan.Plan.Reordering
import Logan.Util.Selection
import Mathlib.Order.Preorder.Finite

/-!
# The plans that a user chooses from

A Pareto front can be long. A user is shown at most four plans of it: the one
with the best quality, the one with the longest context, the one with the least
latency, and a balanced one. One plan can be several of them.

Each of the two optimizers has its own keys. Behind the numbers of a key stands
the id of the plan, so that the choice depends on the plans of the front and not
on their order; and these do not depend on the order in which options and contexts
are listed.
-/

namespace Logan

open List Optimizer Tiered Result

namespace Optimizer

end Optimizer

/-! ## Plans of the second optimizer -/

namespace Tiered

end Tiered

/-! ## The choice -/

end Logan
