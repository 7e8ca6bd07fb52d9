import Libcn.Lib.Machine
import Libcn.Lib.RedBlack
import Libcn.Lib.Region
import Libcn.Lib.Bytes
import Libcn.Lib.Window
import Libcn.Lib.Ring
import Libcn.Lib.Ledger
import Libcn.Lib.StableSort
import Libcn.Lib.Lock
import Libcn.Lib.Gregorian
import Libcn.Lib.Recurrence
import Libcn.Lib.Partial
import Libcn.Lib.Budget
import Libcn.Lib.Simulation
import Libcn.Rbtree.Basic
import Libcn.Rbtree.Shape
import Libcn.Rbtree.Rotate
import Libcn.Rbtree.Insert
import Libcn.Rbtree.DeleteFixup
import Libcn.Rbtree.Delete
import Libcn.Rbtree.Run
import Libcn.Rbtree.Sorted
import Libcn.Rbtree.Rekey
import Libcn.Rbtree.Checked
import Libcn.Rbtree.Next
import Libcn.Rbtree.Safe
import Libcn.Rbtree.Cost
import Libcn.Timer.Basic
import Libcn.Timer.Tree
import Libcn.Timer.Expire
import Libcn.Timer.Mirror
import Libcn.Timer.Rearm
import Libcn.Timer.Find
import Libcn.Timer.Sleep
import Libcn.Timer.Shift
import Libcn.Timer.Left
import Libcn.Queue.Basic
import Libcn.Queue.Lists
import Libcn.Queue.Sort
import Libcn.Queue.Middle
import Libcn.Accept.Mutex
import Libcn.Accept.Exclusive
import Libcn.Accept.Release
import Libcn.Accept.Steps
import Libcn.Palloc.Basic
import Libcn.Palloc.Tidy
import Libcn.Palloc.Owned
import Libcn.Palloc.Array
import Libcn.Palloc.Session
import Libcn.Palloc.Destroy
import Libcn.Palloc.Contents
import Libcn.Palloc.List
import Libcn.Palloc.Reserved
import Libcn.Palloc.Bounds
import Libcn.Palloc.Search
import Libcn.Palloc.Memory
import Libcn.Palloc.Layout
import Libcn.Palloc.Stored
import Libcn.Palloc.Simulate
import Libcn.Palloc.Freed
import Libcn.Cycle.Basic
import Libcn.Cycle.Operations
import Libcn.Cycle.Mirror
import Libcn.Cycle.Slots
import Libcn.Cycle.Specs
import Libcn.Cycle.Interest
import Libcn.Cycle.Closing
import Libcn.Cycle.Machine
import Libcn.Cycle.Runs
import Libcn.Cycle.Effect
import Libcn.Cycle.Partition
import Libcn.Cycle.Flags
import Libcn.Cycle.Stale
import Libcn.Cycle.Delivery
import Libcn.Cycle.Shutdown
import Libcn.Program.Handlers
import Libcn.Program.Machine
import Libcn.Program.Service
import Libcn.Program.Frame
import Libcn.Program.Receive
import Libcn.Program.Send
import Libcn.Program.Draining
import Libcn.Program.Accepting
import Libcn.Program.Looping
import Libcn.Program.Refinement
import Libcn.Program.Orphans
import Libcn.Program.Echo
import Libcn.Program.Accounts
import Libcn.Program.Exhaustion
import Libcn.Program.Buffers
import Libcn.Program.Readiness
import Libcn.Program.Arming
import Libcn.Program.Calls
import Libcn.Program.Deadlines
import Libcn.Program.Deferred
import Libcn.Program.OnTime
import Libcn.Program.Progress
import Libcn.Program.Startup
import Libcn.Program.Work
import Libcn.Program.Filing
import Libcn.Program.Fleet
import Libcn.Program.Guarded
import Libcn.Program.Sharing
import Libcn.Program.Tracking
import Libcn.Program.Possession
import Libcn.Program.Steps
import Libcn.Program.Throttle
import Libcn.Descriptor.Spending
import Libcn.Descriptor.Machine
import Libcn.Descriptor.Ownership
import Libcn.Times.Gmtime
import Libcn.Times.Cache
import Libcn.Times.Reader
import Libcn.Shmtx.Backoff
import Libcn.Shmtx.Basic
import Libcn.Shmtx.Owner
