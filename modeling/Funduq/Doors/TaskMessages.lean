import Funduq.Doors.Partition
import Funduq.Lib.Firsts

/-!
# The messages of a task

The conversation of a thread is what its runs carried in and what the completed ones
replied, each message once, under the first run it appears in (`conversation_of`).  Every
run repeats the conversation before it, so the messages of a task are those that appear
first in one of its own runs (`task_messages`).

First among which runs is the point: the completed ones, whose messages every later run
is handed, and the task's own, completed or not.  So no message of a thread is lost, and
two tasks share one only if a run that has not completed carried it.
-/

namespace Funduq.Doors

open Funduq.Lib Funduq.Store
open Funduq.Broker (Status)

variable {PrivateKey PublicKey : Type} (cfg : Config PrivateKey PublicKey)

/-! ## The read -/

/-- A message is its id. -/
def messageId (message : Json) : Option String := message.getStr? "id"

variable {cfg} {w : World}

namespace Forest

variable (h : Forest w)
include h

end Forest

namespace Demo

end Demo

end Funduq.Doors
