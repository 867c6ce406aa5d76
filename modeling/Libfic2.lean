import Libfic2.Driver.Prog
import Libfic2.Driver.Bits
import Libfic2.Driver.Wp
import Libfic2.Driver.Bursts
import Libfic2.Driver.Events
import Libfic2.Driver.Traces
import Libfic2.Driver.Contracts
import Libfic2.Driver.Loads
import Libfic2.Driver.Rounds
import Libfic2.Driver.Handler
import Libfic2.Driver.Sessions
import Libfic2.Driver.Serial
import Libfic2.Gpio
import Libfic2.Comm
import Libfic2.Hls
import Libfic2.SelectMap
import Libfic2.Signals
import Libfic2.ProgRounds
import Libfic2.PinDirection
import Libfic2.PinSharing
import Libfic2.DeviceRules
import Libfic2.FpgaSampling
import Libfic2.PlainProgramming
import Libfic2.FastProgramming
import Libfic2.PeerRules
import Libfic2.CommBus
import Libfic2.CommWords
import Libfic2.WireFormat
import Libfic2.HlsLoops
import Libfic2.HlsTransfers
import Libfic2.HlsAnswers
import Libfic2.HlsWire
import Libfic2.RegisterPeer
import Libfic2.RegisterFile
import Libfic2.Streaming
import Libfic2.CTypes
import Libfic2.Ficfuse
import Libfic2.FuseSites
import Libfic2.FuseRead
import Libfic2.FuseWrite
import Libfic2.FuseAlignment
import Libfic2.FuseBounds
import Libfic2.FuseBrackets
import Libfic2.Heap.Linked
import Libfic2.Heap.Writeback
import Libfic2.Mmalloc
import Libfic2.FirstFit
import Libfic2.Overlap
import Libfic2.Links
import Libfic2.MapFailures
import Libfic2.Window
import Libfic2.Reuse
import Libfic2.GpioLock
import Libfic2.LockExclusion
import Libfic2.LockLeaks
import Libfic2.Async
import Libfic2.AsyncBuffers
import Libfic2.AsyncStatus
import Libfic2.ProgOutcome
import Libfic2.Waits
import Libfic2.BusRelease
import Libfic2.HlsFailures
import Libfic2.Strobes
import Libfic2.RefusedSizes
import Libfic2.StalledWords
import Libfic2.DrivenPins
import Libfic2.PinContracts
import Libfic2.ProgContracts
import Libfic2.Termination
import Libfic2.PinMasks
import Libfic2.PartialReconfig
import Libfic2.BufferReads
import Libfic2.TxCount
import Libfic2.Latched
import Libfic2.RasDdr
import Libfic2.DdrStore
import Libfic2.FuseWire
import Libfic2.FuseServer
import Libfic2.TestDdr
import Libfic2.SharedDdr
import Libfic2.Paging
import Libfic2.AreaMemory
import Libfic2.LatchedRegs
import Libfic2.RasIo
import Libfic2.PyWrapper
import Libfic2.PyBoard
import Libfic2.Samples
import Libfic2.Pyficprog
