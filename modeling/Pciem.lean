import Pciem.Attach.Hijack
import Pciem.Attach.Restore
import Pciem.Attach.Routing
import Pciem.Bar.Agreement
import Pciem.Bar.Decode
import Pciem.Bar.Placement
import Pciem.Bar.Probe
import Pciem.Bar.Register
import Pciem.Bar.Registers
import Pciem.Bar.Scan
import Pciem.Bar.Sizing
import Pciem.Bar.Table
import Pciem.Config.Access
import Pciem.Config.AddressWidth
import Pciem.Config.Build
import Pciem.Config.ByteView
import Pciem.Config.Capabilities
import Pciem.Config.Chains
import Pciem.Config.Effects
import Pciem.Config.Layout
import Pciem.Config.MemoryLaw
import Pciem.Config.Registers
import Pciem.Config.Structure
import Pciem.Config.TypedRegisters
import Pciem.Device.CapabilityList
import Pciem.Device.Fidelity
import Pciem.Device.Setup
import Pciem.Dma.Atomic
import Pciem.Dma.Indirect
import Pciem.Dma.Local
import Pciem.Dma.Paged
import Pciem.Dma.Prp
import Pciem.Dma.Stale
import Pciem.Dma.Walk
import Pciem.Dma.Window
import Pciem.Events.Eventfd
import Pciem.Events.Numbering
import Pciem.Events.Signalling
import Pciem.Irq.Irqfd
import Pciem.Irq.Msi
import Pciem.Irq.Retire
import Pciem.Kernel.Errno
import Pciem.Kernel.PciRegs
import Pciem.Library.A64
import Pciem.Library.BitField
import Pciem.Library.BoundedChannel
import Pciem.Library.BumpAllocator
import Pciem.Library.ByteMemory
import Pciem.Library.Circular
import Pciem.Library.Emulation
import Pciem.Library.Greedy
import Pciem.Library.Interleaving
import Pciem.Library.Intervals
import Pciem.Library.KeyedList
import Pciem.Library.LinkedPages
import Pciem.Library.Loop
import Pciem.Library.MaskedRegister
import Pciem.Library.Ownership
import Pciem.Library.PageWalk
import Pciem.Library.PointerChain
import Pciem.Library.PowerOfTwo
import Pciem.Library.Replay
import Pciem.Library.Rv64
import Pciem.Library.Scatter
import Pciem.Library.TransitionSystem
import Pciem.Library.Unwinding
import Pciem.Library.X64
import Pciem.Library.X64Move
import Pciem.Nvme.Card
import Pciem.Nvme.Disk
import Pciem.Nvme.Doorbell
import Pciem.Nvme.Fifo
import Pciem.Nvme.QueuePair
import Pciem.Nvme.Registers
import Pciem.Nvme.Rings
import Pciem.P2p.Parse
import Pciem.P2p.Regions
import Pciem.P2p.Whitelist
import Pciem.Pool.Accounts
import Pciem.Pool.Allocate
import Pciem.Pool.Conservation
import Pciem.Pool.Natural
import Pciem.Pool.Ranges
import Pciem.Protopciem.Answers
import Pciem.Protopciem.BackendSteps
import Pciem.Protopciem.CardSteps
import Pciem.Protopciem.Device
import Pciem.Protopciem.DriverSteps
import Pciem.Protopciem.Invariant
import Pciem.Protopciem.Turns
import Pciem.Ring.Confinement
import Pciem.Ring.Refinement
import Pciem.Ring.SharedRing
import Pciem.Slot.Activation
import Pciem.Slot.Atomic
import Pciem.Slot.Bars
import Pciem.Slot.Concurrent
import Pciem.Slot.Creation
import Pciem.Slot.Destroy
import Pciem.Slot.Effects
import Pciem.Slot.Exclusion
import Pciem.Slot.Fds
import Pciem.Slot.Freeze
import Pciem.Slot.Functions
import Pciem.Slot.Invariant
import Pciem.Slot.Ioctl
import Pciem.Slot.Lifetime
import Pciem.Slot.Mmap
import Pciem.Slot.MultiFunction
import Pciem.Slot.NullSafety
import Pciem.Slot.Register
import Pciem.Slot.Serial
import Pciem.Slot.Solitary
import Pciem.Slot.State
import Pciem.Slot.Stepwise
import Pciem.Slot.Teardown
import Pciem.Slot.Transfers
import Pciem.Trace.Arm64
import Pciem.Trace.Context
import Pciem.Trace.Coverage
import Pciem.Trace.Deactivation
import Pciem.Trace.Deactivation.Invariant
import Pciem.Trace.Deactivation.LiveMappings
import Pciem.Trace.InsnDecode
import Pciem.Trace.Lookup
import Pciem.Trace.Maps
import Pciem.Trace.Notification
import Pciem.Trace.PageTables
import Pciem.Trace.Poison
import Pciem.Trace.Riscv
import Pciem.Trace.Rvc
import Pciem.Trace.Smp
import Pciem.Trace.TraceBar
import Pciem.Trace.Translation
import Pciem.Trace.Walkers
import Pciem.Trace.X86
import Pciem.Trace.X86Move
import Pciem.Trace.X86Store
