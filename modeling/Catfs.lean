import Catfs.Theorems.WriterRun
import Catfs.Theorems.WriteFailures
import Catfs.Theorems.WriterBounds
import Catfs.LogBucket
import Catfs.Theorems.LogClient
import Catfs.Theorems.ConcurrentFind
import Catfs.Theorems.CompleteDirs
import Catfs.Theorems.FailedCalls
import Catfs.Theorems.TreeShape
import Catfs.Theorems.HandlesInv
import Catfs.Fs
import Catfs.Theorems.UploadTrace
import Catfs.Theorems.RemoveDir
import Catfs.Theorems.Namespace
import Catfs.Theorems.LookupListing
import Catfs.Theorems.StaleListing
import Catfs.Theorems.Freed
import Catfs.Theorems.FuseReplies
import Catfs.Theorems.UnlinkedRun
import Catfs.Theorems.Enumerations
import Catfs.Theorems.FileTypes
import Catfs.Theorems.RequestFrame
import Catfs.Theorems.TreeNames
import Catfs.Theorems.RequestKeys
import Catfs.Theorems.PageCuts
import Catfs.Theorems.SecondMount
import Catfs.Theorems.ClosedFile
import Catfs.Theorems.FileSizes
import Catfs.Theorems.SizedRequests
import Catfs.Theorems.SizesRun
import Catfs.Theorems.ReadRange
import Catfs.Theorems.Revalidation
import Catfs.Theorems.TreeMerge
import Catfs.Multipart
import Catfs.Theorems.MultipartUpload
import Catfs.Theorems.Rename
import Catfs.Theorems.ObjectTimes
import Catfs.Theorems.Remount
import Catfs.Theorems.HandleTables
import Catfs.Theorems.WriteEnds
import Catfs.Theorems.BucketFrame
import Catfs.Theorems.Interleaved
import Catfs.Theorems.Mounts
import Catfs.Theorems.ReadBack
import Catfs.Theorems.ChangingBucket
import Catfs.Theorems.Marks
import Catfs.Theorems.CheckedCreate
import Catfs.Theorems.Browsing
import Catfs.Theorems.ListingEnds
import Catfs.Theorems.InterleavedNames
import Catfs.Theorems.UploadSession
import Catfs.Theorems.Leases
import Catfs.Theorems.InterleavedErrors
import Catfs.Theorems.Answered
