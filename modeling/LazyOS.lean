import LazyOS.Boot.AtaRead
import LazyOS.Boot.KernelMain
import LazyOS.Boot.MemoryMap
import LazyOS.Disk.Device
import LazyOS.Disk.FlatArray
import LazyOS.Drivers.Clock
import LazyOS.Drivers.Commands
import LazyOS.Drivers.Editor
import LazyOS.Drivers.Layout
import LazyOS.Drivers.Prompt
import LazyOS.Drivers.ShellSessions
import LazyOS.Fs.Coherence
import LazyOS.Fs.Contents
import LazyOS.Fs.Failure
import LazyOS.Fs.Persistence
import LazyOS.Fs.Release
import LazyOS.Fs.RoundTrip
import LazyOS.Fs.StoreSessions
import LazyOS.Fs.Undo
import LazyOS.Fs.WellFormed
import LazyOS.Interrupts.EndOfInterrupt
import LazyOS.Interrupts.Exceptions
import LazyOS.Locking.Owner
import LazyOS.Locking.SharedVariable
import LazyOS.Locking.Waiting
import LazyOS.Memory.BootMap
import LazyOS.Memory.E820
import LazyOS.Memory.HeapBounds
import LazyOS.Memory.HeapClients
import LazyOS.Memory.HeapRace
import LazyOS.Memory.Isolation
import LazyOS.Memory.Kheap
import LazyOS.Memory.PmmRanges
import LazyOS.Memory.VmmCalls
import LazyOS.Scheduling.Burst
import LazyOS.Scheduling.FailedCreation
import LazyOS.Scheduling.FirstSwitch
import LazyOS.Scheduling.Frames
import LazyOS.Scheduling.HeapQueue
import LazyOS.Scheduling.ReaperRuns
import LazyOS.Scheduling.RoundRobin
import LazyOS.Scheduling.StateField
import LazyOS.Boot.KernelMain
