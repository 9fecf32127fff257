import Pyuring.Native.CopyPathExact
import Pyuring.Native.BufferBounds
import Pyuring.Native.BufferLifetime
import Pyuring.Native.CopyFiles
import Pyuring.Native.WriteNewfileExact
import Pyuring.Native.WriteManyfilesExact
import Pyuring.Native.FileCalls
import Pyuring.Native.PipelineTermination
import Pyuring.Native.CopyAccounting
import Pyuring.Native.WriteManyfilesBackoff
import Pyuring.Native.ProgressReports
import Pyuring.Native.SizeClamping
import Pyuring.Native.WriterHoles
import Pyuring.Native.ResourceRelease
import Pyuring.Native.SyncAttribution
import Pyuring.Native.SyncIdle
import Pyuring.Native.RefusedEntries
import Pyuring.Native.BufferPins
import Pyuring.Native.TagFidelity
import Pyuring.Native.RegisteredBuffers
import Pyuring.Native.BatchReads
import Pyuring.Native.VectoredCalls
import Pyuring.Native.RefusedTag
import Pyuring.Native.PoolRequests
import Pyuring.Native.EpollLayout
import Pyuring.EasyDurability
import Pyuring.UringAsyncDelivery
import Pyuring.UringAsyncReader
import Pyuring.UringAsyncHandover
import Pyuring.UringAsyncRegistration
import Pyuring.UringAsyncDirect
import Pyuring.MultishotAccept
import Pyuring.SendfileSpliceFaults
import Pyuring.ProbeIoUring
import Pyuring.UringPool
import Pyuring.AsyncFileCancellation
import Pyuring.AsyncFileRefinement
import Pyuring.AsyncFileErrors
import Pyuring.AsyncFileClose
import Pyuring.AsyncFileEnter
import Pyuring.AsyncFileProgress
import Pyuring.AsyncFileShared
import Pyuring.EasyAdaptive
