import FlightOs.ListHead
import FlightOs.Lib.Dyadic
import FlightOs.Lib.System
import FlightOs.Log2
import FlightOs.Mm.Bookkeeping
import FlightOs.Lib.Walk
import FlightOs.Srmmu.Contract
import FlightOs.Lib.Chain
import FlightOs.Lib.Tiling
import FlightOs.Kmem.Resize
import FlightOs.Kmem.Shrink
import FlightOs.Mmu.Contract
import FlightOs.Chunk.Contract
import FlightOs.Net.Contract
import FlightOs.Net.Starve
import FlightOs.Net.Pending
import FlightOs.Net.Steps
import FlightOs.Sched.RrFair
import FlightOs.Sched.RrReclaim
import FlightOs.Sched.Core
import FlightOs.Sched.Register
import FlightOs.Sched.EdfPick
import FlightOs.Sched.Busy
import FlightOs.Sched.EdfDemand
import FlightOs.Sched.Attr
import FlightOs.Ram.Cover
import FlightOs.Ram.Edac
import FlightOs.Ram.Checkbits
import FlightOs.Irq.Queue
import FlightOs.Irq.Pass
import FlightOs.Irq.Rate
import FlightOs.Irq.Registry
import FlightOs.Irq.Request
import FlightOs.Spw.TxDesc
import FlightOs.Spw.Routing
import FlightOs.Spw.AutoDrop
import FlightOs.Spw.Packet
import FlightOs.Spw.Teardown
import FlightOs.Mna.Contract
import FlightOs.Chunk.Bootmem
import FlightOs.Ar.Passes
import FlightOs.Ar.Lookup
import FlightOs.Ar.Inside
import FlightOs.Str.Memmove
import FlightOs.Str.EndPtr
import FlightOs.Str.Strtok
import FlightOs.Elf.Placement
import FlightOs.Elf.AppLoad
import FlightOs.Elf.Patch
import FlightOs.Elf.Symbols
import FlightOs.Sysctl.Lookup
import FlightOs.Tty.Console
import FlightOs.Mm.BlockSize
import FlightOs.Clock.Owner
import FlightOs.Clock.Cycles
import FlightOs.Mmu.Backing
import FlightOs.Printf.Integer
import FlightOs.Printf.Terminator
import FlightOs.Thread.Create
import FlightOs.Sched.Slots
import FlightOs.Sched.Range
import FlightOs.Sched.Activation
import FlightOs.Sched.Affinity
import FlightOs.Mm.Request
import FlightOs.Srmmu.Marker
import FlightOs.Srmmu.Failure
import FlightOs.Kmem.Overflow
import FlightOs.Kmem.Stale
import FlightOs.Chunk.Header
import FlightOs.Chunk.Room
import FlightOs.Page.Overlap
import FlightOs.Page.Partition
import FlightOs.Page.Avail
import FlightOs.Boot.Banks
import FlightOs.Tick.Calibrate
import FlightOs.Dsp.Deglitch
import FlightOs.Noc.Conserve
import FlightOs.Net.XentiumRun
import FlightOs.Spw.TxRing
import FlightOs.Srmmu.Range
import FlightOs.Dsp.StackRun
import FlightOs.Spw.EndToEnd
import FlightOs.Boot.Migrate
import FlightOs.Str.Roundtrip
