import Kairon.Upload.Records
import Kairon.Upload.Terminal
import Kairon.Upload.Resume
import Kairon.Upload.PutStores
import Kairon.Upload.ByteOffset
import Kairon.Search.Agreement
import Kairon.Maintenance.Staging
import Kairon.Maintenance.Reconcile
import Kairon.Memory.Honest
import Kairon.Core.Migrations
import Kairon.Correlation.Scope
import Kairon.Host.Facts
import Kairon.Ingest.PlanRun
import Kairon.Ingest.MergeHistory
import Kairon.Timeline.Drafts
import Kairon.Timeline.Reconciliation
import Kairon.Search.Paging
import Kairon.Detections.Bulk
import Kairon.Correlation.Machines
import Kairon.Memory.Ended
import Kairon.Memory.Gates
import Kairon.Memory.Counted
import Kairon.Memory.EgressFull
import Kairon.Memory.EgressPolicy
import Kairon.Linux.Carriers
import Kairon.Detections.Bursts
import Kairon.Memory.ImageEnds
import Kairon.Process.Federates
import Kairon.Process.SearchScope
import Kairon.Graph.Shown
import Kairon.Process.LayoutEnds
import Kairon.Upload.FolderUnpacks
import Kairon.Host.ListOrder
import Kairon.Sigma.Windash
import Kairon.Sigma.Keywords
import Kairon.Sigma.Expansion
import Kairon.Disk.BootSector
import Kairon.Lvm.Segments
import Kairon.Lvm.RoundTrip
import Kairon.Disk.Export
import Kairon.Linux.JournalBinary
import Kairon.Disk.BlockMap
import Kairon.Lvm.Descriptors
import Kairon.Upload.Capacity
import Kairon.Linux.LocalTime
import Kairon.Disk.History
import Kairon.Ingest.ShellLink
