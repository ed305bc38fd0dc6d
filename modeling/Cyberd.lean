import Cyberd.Capabilities
import Cyberd.Conf.Arguments
import Cyberd.Conf.Blocks
import Cyberd.Conf.Bounds
import Cyberd.Conf.Confined
import Cyberd.Conf.Copies
import Cyberd.Conf.Cursors
import Cyberd.Conf.Deletion
import Cyberd.Conf.Expanded
import Cyberd.Conf.Fate
import Cyberd.Conf.Fields
import Cyberd.Conf.Grammar
import Cyberd.Conf.Ids
import Cyberd.Conf.Line
import Cyberd.Conf.LineAccess
import Cyberd.Conf.Numbers
import Cyberd.Conf.Overrides
import Cyberd.Conf.Owned
import Cyberd.Conf.Reading
import Cyberd.Conf.RoundTrip
import Cyberd.Conf.Signals
import Cyberd.Conf.Stored
import Cyberd.Conf.Tokens
import Cyberd.Conf.Values
import Cyberd.Conf.Writer
import Cyberd.Connection.Authority
import Cyberd.Connection.Bytes
import Cyberd.Connection.CapabilityWord
import Cyberd.Connection.Chunk
import Cyberd.Connection.Chunking
import Cyberd.Connection.Commands
import Cyberd.Connection.Confinement
import Cyberd.Connection.Cursor
import Cyberd.Connection.Cuts
import Cyberd.Connection.Messages
import Cyberd.Connection.Names
import Cyberd.Connection.Parser
import Cyberd.Connection.Stream
import Cyberd.Ctl.EndpointCreate
import Cyberd.Ctl.Initctl
import Cyberd.Ctl.Program
import Cyberd.Ctl.Requests
import Cyberd.Daemon.Books
import Cyberd.Daemon.Configuration
import Cyberd.Daemon.Deliverable
import Cyberd.Daemon.Effects
import Cyberd.Daemon.Failures
import Cyberd.Daemon.Forks
import Cyberd.Daemon.Heap
import Cyberd.Daemon.Index
import Cyberd.Daemon.Instances
import Cyberd.Daemon.Machine
import Cyberd.Daemon.Merge
import Cyberd.Daemon.Mirror
import Cyberd.Daemon.Operations
import Cyberd.Daemon.Reload
import Cyberd.Daemon.Run
import Cyberd.Daemon.Signals
import Cyberd.Daemon.Spawns
import Cyberd.Daemon.SpawnsIndex
import Cyberd.Daemon.Teardown
import Cyberd.Library.CString
import Cyberd.Library.Comparator
import Cyberd.Library.Credentials
import Cyberd.Library.Getopt
import Cyberd.Library.Memory
import Cyberd.Library.Numerals
import Cyberd.Library.Outcome
import Cyberd.Library.Schedules
import Cyberd.Main.Calls
import Cyberd.Main.Handlers
import Cyberd.Main.Histories
import Cyberd.Main.Program
import Cyberd.Main.Rc
import Cyberd.Main.RcRuns
import Cyberd.Main.Reboots
import Cyberd.Main.Refinement
import Cyberd.Main.Requests
import Cyberd.Main.Sound
import Cyberd.Main.Wakeups
import Cyberd.Server.Changes
import Cyberd.Server.Confinement
import Cyberd.Server.Descriptors
import Cyberd.Server.Endpoints
import Cyberd.Server.Exec
import Cyberd.Server.Inheritance
import Cyberd.Server.Invariant
import Cyberd.Server.Loads
import Cyberd.Server.Privileges
import Cyberd.Server.Releases
import Cyberd.Server.Rounds
import Cyberd.Server.Runs
import Cyberd.Server.Switch
import Cyberd.Trap
import Cyberd.Tree.Ascending
import Cyberd.Tree.Balance
import Cyberd.Tree.Index
import Cyberd.Tree.Node
import Cyberd.Tree.Order
import Cyberd.Tree.Runs
