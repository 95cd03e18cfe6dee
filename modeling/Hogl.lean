import Hogl.Data.MaskedIndex
import Hogl.Data.BoundedFifo
import Hogl.Data.Bytes
import Hogl.Data.Nibbles
import Hogl.Data.Runs
import Hogl.Data.Sorting
import Hogl.Data.Histories
import Hogl.Data.BitWords
import Hogl.Data.Overrides
import Hogl.Data.CNumbers
import Hogl.Ring.Ringbuf
import Hogl.Ring.Session
import Hogl.Ring.Refinement
import Hogl.Record.Args
import Hogl.Record.Record
import Hogl.Record.Timestamp
import Hogl.Record.Copies
import Hogl.Record.Packing
import Hogl.Record.Storage
import Hogl.Record.Overrun
import Hogl.Area.Area
import Hogl.Area.Mask
import Hogl.Area.MaskText
import Hogl.Sched.Cpulist
import Hogl.Sched.Affinity
import Hogl.Post.RecordRing
import Hogl.Post.RecordBlock
import Hogl.Post.Posting
import Hogl.Format.Basic
import Hogl.Format.Xdump
import Hogl.Format.PostedDumps
import Hogl.Raw.Packer
import Hogl.Raw.Parser
import Hogl.Raw.Reads
import Hogl.Raw.Arguments
import Hogl.Raw.Bounds
import Hogl.Raw.RoundTrip
import Hogl.Engine.Shared
import Hogl.Engine.Engine
import Hogl.Engine.Clients
import Hogl.Engine.Steps
import Hogl.Engine.Registry
import Hogl.Engine.Tracking
import Hogl.Engine.Shapes
import Hogl.Engine.Capacity
import Hogl.Engine.Delivery
import Hogl.Engine.ExactlyOnce
import Hogl.Engine.Writers
import Hogl.Engine.Acknowledged
import Hogl.Engine.DropAccounting
import Hogl.Engine.Timesources
import Hogl.Engine.Ownership
import Hogl.Engine.Blocking
import Hogl.Engine.Numbering
import Hogl.Engine.Reuse
import Hogl.Output.Signals
import Hogl.Output.Ostrbuf
import Hogl.Output.Chunks
import Hogl.Engine.Numbering
import Hogl.Engine.Waiting
import Hogl.Data.Trails
import Hogl.Raw.Cook
import Hogl.Raw.Resync
import Hogl.Data.Decimals
import Hogl.Format.Tscache
import Hogl.Format.Headers
import Hogl.Output.Names
import Hogl.Recover.Coalesce
import Hogl.Recover.LoadFailures
import Hogl.Recover.LoadedMemory
import Hogl.Recover.Records
import Hogl.Format.DumpLoops
import Hogl.Format.DumpLines
import Hogl.Post.OpenCoded
import Hogl.Post.Sections
import Hogl.Raw.Rdbuf
import Hogl.Output.Tee
import Hogl.Output.Rotation
import Hogl.Data.KeyedSets
import Hogl.Recover.Dumps
import Hogl.Data.LooseMasks
import Hogl.Recover.SafeWalks
import Hogl.Data.MergeRounds
import Hogl.Engine.Merging
import Hogl.Engine.Ordering
import Hogl.Engine.TwoPolls
import Hogl.Recover.Crashes
import Hogl.Data.Streams
import Hogl.Raw.Truncation
import Hogl.Engine.Outputs
import Hogl.Output.Pipeline
import Hogl.Engine.Progress
import Hogl.Engine.Sweeping
import Hogl.Engine.Draining
import Hogl.Data.Turns
import Hogl.Post.Threads
import Hogl.Engine.ThreadRings
import Hogl.Data.Wheel
import Hogl.Output.Restarts
import Hogl.Area.Registry
import Hogl.Data.Requests
import Hogl.Raw.Following
