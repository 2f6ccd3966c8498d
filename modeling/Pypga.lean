import Pypga.Foundation.Accumulation
import Pypga.Foundation.ClockedMachine
import Pypga.Foundation.ConeOfInfluence
import Pypga.Foundation.CsvReader
import Pypga.Foundation.Dialogue
import Pypga.Foundation.Dictionary
import Pypga.Foundation.FixedWidth
import Pypga.Foundation.Handshake
import Pypga.Foundation.InterruptedRun
import Pypga.Foundation.LabelledRun
import Pypga.Foundation.LittleEndian
import Pypga.Foundation.NamedTree
import Pypga.Foundation.Numerals
import Pypga.Foundation.PeakHold
import Pypga.Foundation.Reciprocal
import Pypga.Foundation.Rounding
import Pypga.Foundation.SerialReceiver
import Pypga.Foundation.StoreSequence
import Pypga.Foundation.Waveform
import Pypga.Migen.AxiHandshake
import Pypga.Migen.AxiWriter
import Pypga.Migen.BurstDecomposition
import Pypga.Migen.BurstPeriods
import Pypga.Migen.BurstRepetition
import Pypga.Migen.BurstSchedule
import Pypga.Migen.BurstSpacing
import Pypga.Migen.BurstWindows
import Pypga.Migen.Counter
import Pypga.Migen.ModularCount
import Pypga.Migen.Operands
import Pypga.Migen.Pid
import Pypga.Migen.PulseBursts
import Pypga.Migen.PulseGenerators
import Pypga.Migen.PulseRetuning
import Pypga.Migen.PulseTiming
import Pypga.Migen.SpiContract
import Pypga.Migen.SpiLink
import Pypga.Migen.SpiLockstep
import Pypga.Migen.SpiMachine
import Pypga.Migen.SpiTiming
import Pypga.Migen.SpiTransfer
import Pypga.Migen.SpiWires
import Pypga.Migen.SpiWord
import Pypga.Migen.StoppingCounter
import Pypga.Remote.Admission
import Pypga.Remote.Attribution
import Pypga.Remote.CommandStream
import Pypga.Remote.CompleteRuns
import Pypga.Remote.Connection
import Pypga.Remote.DirectAccess
import Pypga.Remote.ExecutedRequests
import Pypga.Remote.ForkedAccess
import Pypga.Remote.MonitorServer
import Pypga.Remote.OrderedSession
import Pypga.Remote.OrderlySession
import Pypga.Remote.ProtocolRefinement
import Pypga.Remote.RamReads
import Pypga.Remote.RequestExecution
import Pypga.Remote.Segmentation
import Pypga.Remote.ServerObject
import Pypga.Remote.ServerStart
import Pypga.Remote.SharedClient
import Pypga.Remote.SocketClient
import Pypga.Remote.TokenReplies
import Pypga.Core.AccessSequence
import Pypga.Core.ArrayAssignment
import Pypga.Core.ArrayAttribute
import Pypga.Core.ArrayDecoding
import Pypga.Core.ArrayRoundTrip
import Pypga.Core.ArrayWrite
import Pypga.Core.AssignedValues
import Pypga.Core.BuildResults
import Pypga.Core.ClockedBoard
import Pypga.Core.CsrFile
import Pypga.Core.DrawnCone
import Pypga.Core.DrawnGraph
import Pypga.Core.IndexedArray
import Pypga.Core.Inheritance
import Pypga.Core.InstanceTree
import Pypga.Core.Instances
import Pypga.Core.MemoryRegister
import Pypga.Core.ModuleClasses
import Pypga.Core.MountedRegister
import Pypga.Core.OffsetLaw
import Pypga.Core.Quantisation
import Pypga.Core.RegisterFile
import Pypga.Core.RegisterNames
import Pypga.Core.RegisterSessions
import Pypga.Core.Registers
import Pypga.Core.RemoteInterface
import Pypga.Core.SharedRegister
import Pypga.Core.UndisturbedBuild
import Pypga.Core.Visualisation
import Pypga.Core.WholeResults
import Pypga.Core.WordEncoding
import Pypga.Modules.AcquisitionLength
import Pypga.Modules.Averaging
import Pypga.Modules.AveragingFactor
import Pypga.Modules.Awg
import Pypga.Modules.AwgBoard
import Pypga.Modules.AwgSession
import Pypga.Modules.BinContents
import Pypga.Modules.Converters
import Pypga.Modules.Counter
import Pypga.Modules.Daq
import Pypga.Modules.DataAttribute
import Pypga.Modules.Playback
import Pypga.Modules.PulseGen
import Pypga.Modules.RamReadback
import Pypga.Modules.RamWindows
import Pypga.Modules.Recording
import Pypga.Modules.SampleReduction
import Pypga.Modules.SamplingPeriod
import Pypga.Modules.StoragePaths
import Pypga.Modules.TimeBins
import Pypga.Modules.TimeOrder
