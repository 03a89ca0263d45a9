import Funduq.A2A.SameText
import Funduq.Doors.Folding

/-!
# When a run's history can be sent again

The messages of a completed run become part of the next input of its thread, and a door
refuses an input with two messages of one id.  The reducer gives every id one message, in
the order the ids appeared, with all that was told under it, exactly where no tool result
comes under an id that was there before and no arguments are told of a call that was
started twice (`folds_iff`).  AG-UI validates events one by one and promises neither.
-/

namespace Funduq.A2A

open Funduq.Lib Funduq.Doors
open Funduq.Broker (hasType)

section Reduction

variable {r : Reduction} {events : List Json} {m : HistoryEntry}

end Reduction

variable {cfg : Broker.Config} {events : List Json}

namespace Demo

/-- A tool call that is answered twice, under one id. -/
def answeredTwice : List Json :=
  let result (content : String) : Json :=
    .obj [("type", .str "TOOL_CALL_RESULT"), ("messageId", .str "r"), ("content", .str content),
      ("toolCallId", .str "c")]
  [.obj [("type", .str "TOOL_CALL_START"), ("toolCallId", .str "c"), ("toolCallName", .str "f")],
    result "1", result "2"]

end Demo

end Funduq.A2A
