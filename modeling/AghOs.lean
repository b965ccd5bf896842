import AghOs.Machine.Reach
import AghOs.Machine.Threads
import AghOs.Barber.Shop
import AghOs.Barber.Chair
import AghOs.Barber.Mutex
import AghOs.Barber.Refine
import AghOs.Barber.Exclusion
import AghOs.Barber.Seats
import AghOs.Barber.Invitation
import AghOs.Barber.WaitingRoom
import AghOs.Barber.Sets
import AghOs.ProdCons.Settings
import AghOs.ProdCons.Reading
import AghOs.ProdCons.Buffer
import AghOs.ProdCons.Fifo
import AghOs.ProdCons.Shutdown
import AghOs.ProdCons.Wakeups
import AghOs.ProdCons.Overflow
import AghOs.ProdCons.Wraparound
import AghOs.ProdCons.Returns
import AghOs.ProdCons.Printed
import AghOs.Calc.Agreement
import AghOs.Calc.Calls
import AghOs.Calc.Framing
import AghOs.Calc.Names
import AghOs.MsgQueue.Client
import AghOs.MsgQueue.Order
import AghOs.MsgQueue.Answers
import AghOs.MsgQueue.Replies
import AghOs.MsgQueue.Limit
import AghOs.MsgQueue.Commands
import AghOs.MsgQueue.Bc
import AghOs.Calc.Transports
import AghOs.Machine.Descriptors
import AghOs.Machine.Integers
import AghOs.Machine.Scanf
import AghOs.Pgm.Filtering
import AghOs.Pgm.Blocks
import AghOs.Pgm.Text
import AghOs.Shell.Aftermath
import AghOs.Shell.Bounds
import AghOs.Shell.Quoting
import AghOs.Shell.Rendering
import AghOs.Shell.Script
import AghOs.Calc.Epoll
import AghOs.Calc.Refused
import AghOs.Calc.Senders
import AghOs.Calc.RoundRobin
import AghOs.Calc.Datagrams
import AghOs.Calc.Receive
import AghOs.Calc.Inactivity
import AghOs.Calc.Overrun
import AghOs.Records.Failures
import AghOs.Records.Program
import AghOs.Records.Sort
import AghOs.Challoc.Driver
import AghOs.Challoc.Nearest
import AghOs.Permissions.Due
import AghOs.Permissions.Ending
import AghOs.Permissions.Lost
import AghOs.ListFiles.Fork
import AghOs.ProdCons.Queue
import AghOs.Calc.Residue
import AghOs.ListFiles.Program
import AghOs.ListFiles.Shown
import AghOs.Pgm.Convolution
import AghOs.Pgm.Scaling
import AghOs.Pgm.Loaders
import AghOs.Machine.Float32
import AghOs.Pgm.FilterText
import AghOs.Shell.Await
import AghOs.Machine.Signals
import AghOs.Signals.LockStep
import AghOs.Signals.Requests
import AghOs.Signals.Clock
import AghOs.Signals.Hang
import AghOs.NamedPipe.Completion
import AghOs.Pgm.Program
