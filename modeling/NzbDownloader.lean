import NzbDownloader.Queue.Restart
import NzbDownloader.Queue.Alignment
import NzbDownloader.Extract.Confine
import NzbDownloader.Extract.Padding
import NzbDownloader.Extract.HeaderSize
import NzbDownloader.Extract.HeaderWalk
import NzbDownloader.Extract.OpenVolume
import NzbDownloader.Download.Removal
import NzbDownloader.Download.Stops
import NzbDownloader.Download.SingleOwner
import NzbDownloader.Download.PoolCancel
import NzbDownloader.Download.Recover
import NzbDownloader.Download.Present
import NzbDownloader.Web.Delete
import NzbDownloader.Nntp.Pool
import NzbDownloader.Par2.Provenance
import NzbDownloader.Par2.GoodData
import NzbDownloader.Download.HandOver
import NzbDownloader.Queue.Completed
import NzbDownloader.Queue.ProgressOrder
import NzbDownloader.Queue.FailedAdd
import NzbDownloader.Download.Retry
import NzbDownloader.Download.Multipart
import NzbDownloader.Download.SinglePart
import NzbDownloader.Nntp.LongLines
import NzbDownloader.Nzb.FilePaths
import NzbDownloader.Download.OwnSegment
import NzbDownloader.Par2.SolveFlat
import NzbDownloader.Par2.Singular
import NzbDownloader.Par2.Exponents
import NzbDownloader.Par2.Numbering
import NzbDownloader.Par2.PacketLoop
import NzbDownloader.Web.Settings
import NzbDownloader.Web.Utf8
import NzbDownloader.Queue.Sweep
import NzbDownloader.Extract.CopyData
import NzbDownloader.Web.RecentErrors
import NzbDownloader.Nzb.Chunks
import NzbDownloader.Download.VolumeOrder
import NzbDownloader.Web.Nfo
import NzbDownloader.Queue.VolumeName
import NzbDownloader.Par2.Carryless
import NzbDownloader.Extract.Relpath
import NzbDownloader.Download.Delivery
import NzbDownloader.Web.Upload
