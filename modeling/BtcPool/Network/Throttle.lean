import BtcPool.Network.Session
import BtcPool.Protocol.Sv2.Session
import BtcPool.Security.ShareRate

/-!
# Messages of a session are held to a rate

Both session loops ask the limiter before they handle a message: `handle_line` for every line, and
`handle_message` for every frame that is not too large. Here the limiter of a session runs with it,
and its verdicts are what the session steps on (`Env.rateOk`).
-/

namespace BtcPool

open Bitcoin

namespace Sv1

/-- The input with the verdict of the limiter. -/
def Input.judged (rateOk : Bool) (input : Input) : Input :=
  { input with env := { input.env with rateOk } }

end Sv1

namespace Sv2

/-- The input with the verdict of a rate limiter. -/
def Input.judged (rateOk : Bool) (input : Input) : Input :=
  { input with env := { input.env with rateOk } }

end Sv2

end BtcPool
