import Qito.Lib.Lists
import Qito.Lib.Memory
import Qito.Lib.Words
import Qito.Lib.Runs
import Qito.Lib.Traces
import Qito.Lib.Links
import Qito.Lib.Ancestry
import Qito.Lib.Buffers
import Qito.Lib.Bitmaps
import Qito.Lib.Tries
import Qito.Lib.Faults
import Qito.Lib.Checked
import Qito.Lib.Packed
import Qito.Lib.Nesting
import Qito.Lib.Rings
import Qito.Lib.Rows
import Qito.Lib.Base64
import Qito.Lib.Decimals
import Qito.Lib.Canvas
import Qito.Lib.Sha2
import Qito.Lib.Forest
import Qito.Lib.Extents
import Qito.Lib.Blocks
import Qito.Lib.Search
import Qito.Lib.Splices
import Qito.Lib.Pieces
import Qito.Lib.OnesComplement
import Qito.Lib.Signed
import Qito.Lib.Spans
import Qito.Lib.Utf8
import Qito.Heap.Model
import Qito.Heap.Layout
import Qito.Heap.Blocks
import Qito.Heap.Invariant
import Qito.Heap.Operations
import Qito.Heap.Runs
import Qito.Heap.Frees
import Qito.Heap.Writes
import Qito.Heap.Resizing
import Qito.Heap.Stale
import Qito.Sched.Model
import Qito.Sched.Queues
import Qito.Sched.Runs
import Qito.Sched.Turns
import Qito.Sched.Creation
import Qito.Sched.Finality
import Qito.Sched.Exits
import Qito.Vfs.Model
import Qito.Vfs.Forest
import Qito.Vfs.Namespace
import Qito.Vfs.Tree
import Qito.Vfs.Calls
import Qito.Vfs.Access
import Qito.Vfs.Secrecy
import Qito.Vfs.Contents
import Qito.Vfs.Refinement
import Qito.Vfs.Frame
import Qito.Vfs.WholeFile
import Qito.Vfs.Saved
import Qito.Vfs.Creation
import Qito.Vfs.Handles
import Qito.Vfs.Extremes
import Qito.Vfs.Generated
import Qito.Vfs.Failures
import Qito.Net.Tcp
import Qito.Net.Delivery
import Qito.Net.Sockets
import Qito.Net.Acks
import Qito.Net.Binding
import Qito.Net.Ephemeral
import Qito.Net.Stream
import Qito.Net.Dns
import Qito.Net.Packets
import Qito.Net.Checksums
import Qito.Net.Receive
import Qito.Net.Bounds
import Qito.Net.Tables
import Qito.Http.Chunked
import Qito.Http.Encoding
import Qito.Http.Request
import Qito.Http.Heads
import Qito.Http.Urls
import Qito.Browser.Model
import Qito.Browser.Links
import Qito.Browser.Entities
import Qito.Browser.Wrapping
import Qito.Browser.Rendering
import Qito.Qtx.Model
import Qito.Qtx.Safety
import Qito.Qtx.Writer
import Qito.Qtx.Agreement
import Qito.Pkg.Registry
import Qito.Pkg.Sha256
import Qito.Pkg.Digest
import Qito.Pkg.Install
import Qito.Pkg.Grammar
import Qito.Pkg.EntryFile
import Qito.Mm.Pmm
import Qito.Mm.Frames
import Qito.Mm.Startup
import Qito.Mm.Completeness
import Qito.Mm.Vmm
import Qito.Mm.Tables
import Qito.Mm.PageMap
import Qito.Mm.Conservation
import Qito.Mm.Counting
import Qito.Mm.Mmap
import Qito.Mm.Large
import Qito.Mm.Room
import Qito.Mm.Areas
import Qito.Mm.Mappings
import Qito.Mm.Usage
import Qito.Ramdisk.Mount
import Qito.Ramdisk.Bounds
import Qito.Ramdisk.Build
import Qito.Ramdisk.RoundTrip
import Qito.Sys.Model
import Qito.Sys.Pointers
import Qito.Sys.Descriptors
import Qito.Sys.Reclaim
import Qito.Sys.Paths
import Qito.Sys.Walks
import Qito.Sys.Random
import Qito.Qdl.Model
import Qito.Qdl.Linking
import Qito.Qdl.Loading
import Qito.Qdl.Termination
import Qito.Qdl.Slots
import Qito.Qdl.References
import Qito.Ipc.Ports
import Qito.Ipc.Fifo
import Qito.Ipc.Pipes
import Qito.Shells.Model
import Qito.Shells.Leftovers
import Qito.Shells.Blanks
import Qito.Shells.Sequencing
import Qito.Shells.Sourcing
import Qito.Shells.Handover
import Qito.Shells.Chains
import Qito.Shells.Quoting
import Qito.Shells.Tokens
import Qito.Shells.Aliases
import Qito.Shells.Effects
import Qito.Shells.Cleanup
import Qito.Shells.Editor
import Qito.Shells.Editing
import Qito.Shells.Sorting
import Qito.Gfx.Capture
import Qito.Gfx.Readback
import Qito.Gfx.Qti
import Qito.Gfx.Icons
import Qito.Gfx.Decoding
import Qito.Gfx.Screen
import Qito.Gfx.Drawing
import Qito.Gfx.Tracking
import Qito.Gfx.Lines
import Qito.Log.Ring
import Qito.Dev.Input
import Qito.Wm.Model
import Qito.Wm.Events
import Qito.Wm.Stacking
import Qito.Wm.Dragging
import Qito.Wm.Geometry
import Qito.Console.Model
import Qito.Console.Cursor
import Qito.Config.Model
import Qito.Config.Persistence
import Qito.Iso.Names
import Qito.Iso.Tree
import Qito.Iso.Image
import Qito.Iso.Identifiers
import Qito.Iso.Reading
import Qito.Iso.Layout
import Qito.Iso.Contents
import Qito.Iso.Soundness
import Qito.Net.Addresses
import Qito.Net.Labels
import Qito.Time.Calendar
import Qito.Time.Gregorian
import Qito.Time.Rtc
import Qito.Libq.Memory
import Qito.Gfx.Unicode
