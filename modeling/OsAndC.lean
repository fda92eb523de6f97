import OsAndC.AccessSafety
import OsAndC.BitPuzzles
import OsAndC.Check
import OsAndC.Coalescing
import OsAndC.DataLab
import OsAndC.DataPreservation
import OsAndC.DatabaseErrors
import OsAndC.DatabaseRecords
import OsAndC.DatabaseVersions
import OsAndC.Drained
import OsAndC.DriverRelocation
import OsAndC.Fcyc
import OsAndC.HeapGrowth
import OsAndC.ListLinks
import OsAndC.MoveCopy
import OsAndC.Noninterference
import OsAndC.OutOfMemory
import OsAndC.Packing
import OsAndC.Recycling
import OsAndC.Reinit
import OsAndC.ReleaseOrder
import OsAndC.RequestLimit
import OsAndC.ShadowMemory
import OsAndC.Slack
import OsAndC.SortedCopy
import OsAndC.TraceBudget
import OsAndC.Undo
