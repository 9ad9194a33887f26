import SpreadAccount.Lib.Machine
import SpreadAccount.Java.Text
import SpreadAccount.Client.Transaction
import SpreadAccount.Client.Replica
import SpreadAccount.Client.Handler
import SpreadAccount.Client.Local
import SpreadAccount.Group.Model
import SpreadAccount.Group.Invariant
import SpreadAccount.Group.Residency
import SpreadAccount.Group.Delivery
import SpreadAccount.Group.Convergence
import SpreadAccount.Group.History
import SpreadAccount.Group.Reports
import SpreadAccount.Group.Join
import SpreadAccount.Group.Status
import SpreadAccount.Group.Wire
import SpreadAccount.Client.Shell
import SpreadAccount.Client.Input
import SpreadAccount.Client.Startup
import SpreadAccount.Group.Process
import SpreadAccount.Group.Lifecycle
import SpreadAccount.Lib.TokenBound
import SpreadAccount.Daemon.Packet
import SpreadAccount.Daemon.Delivery
import SpreadAccount.Daemon.Store
import SpreadAccount.Daemon.Ring
import SpreadAccount.Daemon.Safety
import SpreadAccount.Daemon.Messages
import SpreadAccount.Daemon.Quiet
import SpreadAccount.Daemon.FlowControl
import SpreadAccount.Daemon.Retransmission
import SpreadAccount.Daemon.Frame
import SpreadAccount.Daemon.Reading
