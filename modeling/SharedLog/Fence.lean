import SharedLog.Error

/-!
The epoch fence: the epoch a node takes to be the present one. It only moves forward. Whoever serves an epoch
compares it with the fence before each call, and so stops as soon as the fence has moved.
-/

namespace SharedLog

/-- The present epoch, as far as the node knows. -/
structure Fence where
  current : Epoch
deriving DecidableEq

namespace Fence

/-- Move the fence forward; an epoch that is not newer leaves it alone. The flag says whether it moved. -/
def advance (f : Fence) (epoch : Epoch) : Bool × Fence :=
  if f.current < epoch then (true, ⟨epoch⟩) else (false, f)

/-- Refuse a request stamped with another epoch than the present one. -/
def validate (f : Fence) (epoch : Epoch) : Result Unit :=
  if epoch = f.current then .ok () else .error (.wrongEpoch f.current epoch)

end Fence

end SharedLog
