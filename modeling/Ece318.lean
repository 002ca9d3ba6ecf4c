import Ece318.Bbfs.PathMap
import Ece318.Bbfs.RefCounts
import Ece318.Bbfs.Dedup
import Ece318.Bbfs.BlockContents
import Ece318.Bbfs.Links
import Ece318.Bbfs.ReadWindow
import Ece318.Bbfs.Remount
import Ece318.Bbfs.Sequential
import Ece318.Bbfs.PointersFormat
import Ece318.Bbfs.Undo
import Ece318.Bbfs.FailedWrite
import Ece318.Bbfs.FailedUnlink
import Ece318.Bbfs.RealSize
import Ece318.Bbfs.FullBlocks
import Ece318.Bbfs.Deletion
import Ece318.Bbfs.TempRace
import Ece318.Bbfs.WriteRace
import Ece318.Schedule.QueueRing
import Ece318.Schedule.Safety
import Ece318.Schedule.Waiting
import Ece318.Schedule.Charging
import Ece318.Schedule.Departure
import Ece318.Schedule.Metering
import Ece318.Schedule.Goodness
import Ece318.Schedule.Bursts
import Ece318.Slob.BestFit
import Ece318.Slob.FreeSpace
import Ece318.Slob.AllocatedSpace
import Ece318.Slob.Carve
import Ece318.Slob.Conserve
import Ece318.Schedule.Fairness
import Ece318.Schedule.MinBurst
import Ece318.Slob.Owners
import Ece318.Bbfs.Aftermath
import Ece318.Bbfs.Isolation
import Ece318.Bbfs.Storage
import Ece318.Bbfs.UnlinkRetry
import Ece318.Slob.Pages
import Ece318.Bbfs.Attributes
import Ece318.Bbfs.UnlinkRace
import Ece318.Bbfs.ReadRace
import Ece318.Bbfs.Overtaken
