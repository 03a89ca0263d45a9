import Funduq.Broker.Statuses
import Funduq.Broker.Evidence
import Funduq.Broker.LastWord
import Funduq.Broker.Speech
import Funduq.Broker.Capacity
import Funduq.Broker.Turns
import Funduq.Broker.Wakeup
import Funduq.Broker.Reports
import Funduq.Broker.FailedWrites
import Funduq.Broker.LateCancel
import Funduq.Broker.CancelOnce
import Funduq.Broker.Expiry
import Funduq.Broker.ArrivalOrder
import Funduq.Broker.Counting
import Funduq.Contract.Integrity
import Funduq.Doors.QueueLimit
import Funduq.Doors.OneAnswer
import Funduq.Doors.Record
import Funduq.Doors.Authority
import Funduq.Doors.Waiting
import Funduq.Doors.Lineage
import Funduq.Doors.SingleUse
import Funduq.Doors.Recovery
import Funduq.Doors.CancelRecovery
import Funduq.Doors.Cancelling
import Funduq.Doors.TaskCancel
import Funduq.Doors.Reasons
import Funduq.Doors.Payloads
import Funduq.Doors.Answers
import Funduq.Doors.Bindings
import Funduq.Doors.Refusals
import Funduq.Doors.Landing
import Funduq.Doors.Partition
import Funduq.Doors.TaskMessages
import Funduq.Doors.ThreadTree
import Funduq.Doors.Reading
import Funduq.Rosters.OpenLinks
import Funduq.Rosters.PlainMap
import Funduq.Rosters.LinkGone
import Funduq.Rosters.Tickets
import Funduq.Rosters.Handshake
import Funduq.Broker.Rows
import Funduq.A2A.LastState
import Funduq.A2A.SameText
import Funduq.Provider.Limits
import Funduq.Doors.OwnKey
import Funduq.Doors.Walks
import Funduq.A2A.Folds
import Funduq.Kyok.Collapse
import Funduq.Kyok.Token
import Funduq.Rosters.Deleting
import Funduq.Broker.Running
import Funduq.Kyok.Completion
import Funduq.Kyok.Counting
