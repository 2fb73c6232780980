import SystemsLabs.Memory.Words
import SystemsLabs.Memory.Program
import SystemsLabs.Memory.Layout
import SystemsLabs.Memory.Links
import SystemsLabs.Memory.AbstractAllocator
import SystemsLabs.Malloclab.Basic
import SystemsLabs.Malloclab.Clients
import SystemsLabs.Malloclab.Contract
import SystemsLabs.Malloclab.Implicit
import SystemsLabs.Malloclab.ImplicitHeap
import SystemsLabs.Malloclab.ImplicitRuns
import SystemsLabs.Malloclab.ListBased
import SystemsLabs.Malloclab.FreeLists
import SystemsLabs.Malloclab.ListHeap
import SystemsLabs.Malloclab.ListCalls
import SystemsLabs.Malloclab.Explicit
import SystemsLabs.Malloclab.ExplicitHeap
import SystemsLabs.Malloclab.Seglist
import SystemsLabs.Malloclab.SeglistHeap
import SystemsLabs.Malloclab.ListRuns
import SystemsLabs.Malloclab.ListCoalescing
import SystemsLabs.Caching.Lru
import SystemsLabs.Cachelab.Csim
import SystemsLabs.Cachelab.CsimLru
import SystemsLabs.Runs.Machine
import SystemsLabs.Tshlab.Jobs
import SystemsLabs.Tshlab.Shell
import SystemsLabs.Tshlab.Reaping
import SystemsLabs.Tshlab.Foreground
import SystemsLabs.Caching.Budget
import SystemsLabs.Proxylab.Cache
import SystemsLabs.Proxylab.CacheCalls
import SystemsLabs.Proxylab.LruStore
import SystemsLabs.Proxylab.Allocation
import SystemsLabs.Proxylab.Requests
import SystemsLabs.Proxylab.HandOff
import SystemsLabs.Proxylab.Interleaving
import SystemsLabs.Memory.Strings
import SystemsLabs.Proxylab.Relay
import SystemsLabs.Memory.Pointers
import SystemsLabs.Tshlab.Parse
import SystemsLabs.Tshlab.CommandLines
import SystemsLabs.Proxylab.Uri
import SystemsLabs.Proxylab.RelayBounds
import SystemsLabs.Malloclab.SeglistSearch
import SystemsLabs.Malloclab.CopyBounds
import SystemsLabs.Malloclab.AnySize
import SystemsLabs.Malloclab.AnySizeCalls
import SystemsLabs.Malloclab.Growth
import SystemsLabs.Malloclab.Checkheap
import SystemsLabs.Cachelab.Addresses
import SystemsLabs.Proxylab.RequestStrings
import SystemsLabs.Memory.Buffers
import SystemsLabs.Proxylab.Blocks
import SystemsLabs.Tshlab.SignalMask
import SystemsLabs.Tshlab.StoppedJobs
import SystemsLabs.Tshlab.JobStates
import SystemsLabs.Tshlab.Signals
import SystemsLabs.Posix.Lines
import SystemsLabs.Tshlab.ReadLoop
import SystemsLabs.Memory.Decimals
import SystemsLabs.Tshlab.Listing
import SystemsLabs.Tshlab.Lexer
import SystemsLabs.Tshlab.LineForm
import SystemsLabs.Memory.BoundedStrings
import SystemsLabs.Tshlab.ParseBounds
import SystemsLabs.Tshlab.JobArguments
import SystemsLabs.Posix.Descriptors
import SystemsLabs.Posix.Streams
import SystemsLabs.Proxylab.Rio
import SystemsLabs.Proxylab.RioRuns
import SystemsLabs.Proxylab.RioRelay
import SystemsLabs.Http.Head
import SystemsLabs.Proxylab.RequestHead
import SystemsLabs.Tshlab.Redirection
import SystemsLabs.Tshlab.Exec
import SystemsLabs.Runs.Reordering
import SystemsLabs.Cachelab.SetLines
import SystemsLabs.Cachelab.SetIndependence
import SystemsLabs.Memory.Loops
import SystemsLabs.Cachelab.Trans
import SystemsLabs.Integers.Int32
import SystemsLabs.Integers.Width
import SystemsLabs.Datalab.Bits
import SystemsLabs.Datalab.HowManyBits
import SystemsLabs.Datalab.Words
import SystemsLabs.Floats.Binary
import SystemsLabs.Datalab.Floats
import SystemsLabs.Posix.Scanf
import SystemsLabs.Cachelab.TraceText
