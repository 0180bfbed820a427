import Origel.Numbers
import Origel.Lib.Casts
import Origel.Lib.Store
import Origel.Lib.Lru
import Origel.RedoxFs.Node
import Origel.RedoxFs.FileSystem
import Origel.RedoxFs.Cache
import Origel.RedoxFs.Scheme
import Origel.Lib.Ownership
import Origel.RedoxFs.Extents
import Origel.RedoxFs.Chain
import Origel.RedoxFs.Walk
import Origel.RedoxFs.Layout
import Origel.RedoxFs.Moves
import Origel.RedoxFs.Directory
import Origel.RedoxFs.File
import Origel.RedoxFs.Cells
import Origel.RedoxFs.Growth
import Origel.RedoxFs.Content
import Origel.RedoxFs.Transfer
import Origel.RedoxFs.Outcomes
import Origel.RedoxFs.Blocks
import Origel.RedoxFs.Conservation
import Origel.RedoxFs.Short
import Origel.RedoxFs.Names
import Origel.RedoxFs.Overlay
import Origel.RedoxFs.Lengths
import Origel.RedoxFs.Sectors
import Origel.RedoxFs.Termination
import Origel.RedoxFs.Stale
import Origel.RedoxFs.Fuse
import Origel.Lib.Ends
import Origel.RedoxFs.Paths
import Origel.RedoxFs.Requests
import Origel.RedoxFs.Superuser
import Origel.RedoxFs.Handles
import Origel.RedoxFs.Rights
import Origel.RedoxFs.Creation
import Origel.RedoxFs.Failures
import Origel.Kernel.Descriptors
import Origel.Kernel.Process
import Origel.Kernel.Events
import Origel.Kernel.Atomicity
import Origel.Kernel.Namespaces
import Origel.Kernel.Canonical
import Origel.Kernel.Frames
import Origel.Lib.Loop
import Origel.Kernel.Retries
import Origel.Kernel.Paging
import Origel.Kernel.Tables
import Origel.Lib.FirstFit
import Origel.Lib.Radix
import Origel.Kernel.Grants
import Origel.Kernel.Threads
import Origel.Kernel.Memory
import Origel.Kernel.Brk
import Origel.Kernel.Executable
import Origel.Kernel.Syscall
import Origel.Kernel.Seeks
import Origel.Kernel.Validate
import Origel.Kernel.UserScheme
import Origel.Kernel.Privilege
import Origel.Lib.Cursor
import Origel.RedoxFs.Cursors
import Origel.Lib.Entries
import Origel.Kernel.Acpi
import Origel.Kernel.Pipe
import Origel.Kernel.Waiting
import Origel.Kernel.Futex
import Origel.Kernel.Requeue
import Origel.Kernel.Wakeups
import Origel.Kernel.Scheduling
import Origel.Contain.Chroot
import Origel.Lib.Removal
import Origel.Lib.Segments
import Origel.Contain.Confined
import Origel.Lib.Table
import Origel.Daemon.Scheme
import Origel.Daemon.Replies
import Origel.Daemon.Serving
import Origel.Net.Socket
import Origel.Net.Codec
import Origel.Lib.OnesComplement
import Origel.Net.Checksum
import Origel.Net.Tcp
import Origel.Net.Handling
import Origel.Net.Udp
import Origel.Net.Emission
import Origel.Net.Ports
import Origel.Net.Handshake
import Origel.Net.Ip
import Origel.Net.Sending
import Origel.Net.Neighbours
import Origel.Net.Lan
import Origel.Net.Requests
import Origel.Net.Streams
import Origel.Net.Returned
import Origel.Pty.Ptyd
import Origel.Pty.Streams
import Origel.Lib.SortedMap
import Origel.Orbital.Image
import Origel.Orbital.Scheme
import Origel.Orbital.Loops
import Origel.Orbital.Reads
import Origel.Orbital.Rect
import Origel.Orbital.Window
import Origel.Orbital.Steady
import Origel.Orbital.Drawing
import Origel.Orbital.Damage
import Origel.Orbital.Composed
import Origel.Orbital.Layers
import Origel.Vesad.Scheme
import Origel.Smith.Draws
import Origel.Drivers.E1000
import Origel.Drivers.Rtl8168
import Origel.Net.Delivery
import Origel.Lib.Calendar
import Origel.Kernel.Rtc
import Origel.Orbital.Hits
import Origel.Ion.Text
import Origel.Ion.Braces
import Origel.Ion.Variables
import Origel.Ion.Words
import Origel.Ion.Quotes
import Origel.Ion.Product
import Origel.Ion.Inserted
import Origel.Ion.Pipelines
import Origel.Ion.FlowControl
import Origel.Ion.Scanners
import Origel.Ion.Splitting
import Origel.Ion.Separators
import Origel.Ion.Recovery
import Origel.Ion.DirectoryStack
import Origel.Ion.Functions
import Origel.Extrautils.Calc
import Origel.Extrautils.Grammar
import Origel.Lib.Splice
import Origel.Drivers.Ahci
import Origel.Vesad.Graphic
import Origel.Vesad.Drawing
import Origel.Smith.Click
import Origel.Coreutils.Options
import Origel.Coreutils.Selecting
import Origel.Coreutils.Ranges
import Origel.Coreutils.Date
import Origel.Binutils.Hexdump
import Origel.Lib.Lines
import Origel.Coreutils.Cat
import Origel.Coreutils.CatLines
import Origel.Coreutils.Tail
import Origel.Coreutils.TailLines
import Origel.Tar.Header
import Origel.Tar.Archive
import Origel.Tar.Entries
import Origel.Tar.Builder
import Origel.Tar.Sparse
import Origel.Tar.Reading
import Origel.Tar.Files
import Origel.Lib.Heap
import Origel.Lib.Links
import Origel.Lib.Ordered
import Origel.RedoxFs.LinkedHashMap
import Origel.RedoxFs.Recency
import Origel.RedoxFs.Answers
import Origel.Lib.Recent
import Origel.RedoxFs.LinkedRuns
import Origel.RedoxFs.LinkedCache
