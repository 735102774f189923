import AsePlusPlus.Lib.Program
import AsePlusPlus.Lib.Words
import AsePlusPlus.Lib.Chain
import AsePlusPlus.Lib.Trace
import AsePlusPlus.Lib.Forest
import AsePlusPlus.Lib.Ring
import AsePlusPlus.Lib.Resumption
import AsePlusPlus.Lib.Climb
import AsePlusPlus.Lib.Slots
import AsePlusPlus.Records
import AsePlusPlus.Drive
import AsePlusPlus.Mbr
import AsePlusPlus.Volume
import AsePlusPlus.Superbloc
import AsePlusPlus.Inode
import AsePlusPlus.Ifile
import AsePlusPlus.Format
import AsePlusPlus.Dir
import AsePlusPlus.File
import AsePlusPlus.Fixed
import AsePlusPlus.FreeChain
import AsePlusPlus.Layout
import AsePlusPlus.BlockMap
import AsePlusPlus.Vbloc
import AsePlusPlus.Indirect
import AsePlusPlus.Formatting
import AsePlusPlus.Content
import AsePlusPlus.Descriptor
import AsePlusPlus.Writing
import AsePlusPlus.FreeRuns
import AsePlusPlus.MapRuns
import AsePlusPlus.Shortage
import AsePlusPlus.Openers
import AsePlusPlus.Coherence
import AsePlusPlus.Same
import AsePlusPlus.Stream
import AsePlusPlus.Overrun
import AsePlusPlus.RoundTrip
import AsePlusPlus.Entries
import AsePlusPlus.Paths
import AsePlusPlus.Calm
import AsePlusPlus.Atomic
import AsePlusPlus.Edit
import AsePlusPlus.Tree
import AsePlusPlus.Creation
import AsePlusPlus.Namespace
import AsePlusPlus.Handles
import AsePlusPlus.Volumes
import AsePlusPlus.Regions
import AsePlusPlus.Mknfs
import AsePlusPlus.Kernel
import AsePlusPlus.Dispatch
import AsePlusPlus.Orderly
import AsePlusPlus.Schedule
import AsePlusPlus.Handover
import AsePlusPlus.Contexts
import AsePlusPlus.Semaphores
import AsePlusPlus.Resume
import AsePlusPlus.Serial
import AsePlusPlus.Solitary
import AsePlusPlus.Stepwise
import AsePlusPlus.Tenure
import AsePlusPlus.WellFormed
import AsePlusPlus.Canonical
import AsePlusPlus.Tracktime
import AsePlusPlus.Deletion
import AsePlusPlus.Capacity
import AsePlusPlus.Overwrite
import AsePlusPlus.Directory
import AsePlusPlus.Shell
import AsePlusPlus.Leaks
import AsePlusPlus.Shelves
import AsePlusPlus.Builtins
import AsePlusPlus.Confinement
import AsePlusPlus.FormatVol
import AsePlusPlus.Addressing
import AsePlusPlus.Bulk
import AsePlusPlus.PathWalk
import AsePlusPlus.Lookup
import AsePlusPlus.Rotation
import AsePlusPlus.Reading
import AsePlusPlus.Listing
import AsePlusPlus.Keeping
import AsePlusPlus.Workdir
import AsePlusPlus.Completing
import AsePlusPlus.Starving
import AsePlusPlus.Copying
import AsePlusPlus.Duplicating
import AsePlusPlus.Lib.Store
import AsePlusPlus.Lib.Mirror
import AsePlusPlus.Pouring
import AsePlusPlus.Filing
import AsePlusPlus.Commands
import AsePlusPlus.Mounting
import AsePlusPlus.Fairness
import AsePlusPlus.Partitioning
import AsePlusPlus.Lib.Crew
import AsePlusPlus.Readers
import AsePlusPlus.Lib.Throughout
import AsePlusPlus.Veiled
import AsePlusPlus.Suspended
import AsePlusPlus.Faltering
import AsePlusPlus.Torn
import AsePlusPlus.Outage
import AsePlusPlus.Linking
import AsePlusPlus.Remnants
import AsePlusPlus.Salvage
import AsePlusPlus.Blackouts
