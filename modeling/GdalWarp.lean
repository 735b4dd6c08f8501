import GdalWarp.Bindings.Lifecycle
import GdalWarp.Bindings.FailedInserts
import GdalWarp.Bindings.LentStrings
import GdalWarp.Bindings.Exclusion
import GdalWarp.Bindings.ErrorReports
import GdalWarp.Bindings.ReferenceCounts
import GdalWarp.Bindings.Ownership
import GdalWarp.Bindings.Eviction
import GdalWarp.Bindings.Attempts
import GdalWarp.Bindings.TokenReuse
import GdalWarp.Bindings.TokenSurvival
import GdalWarp.Bindings.OptionArrays
import GdalWarp.Bindings.StringMatrix
import GdalWarp.Bindings.Scratch
import GdalWarp.Bindings.ByteOrder
import GdalWarp.Bindings.PixelBuffers
import GdalWarp.Bindings.Lookup
import GdalWarp.Bindings.Copies
import GdalWarp.Bindings.CacheSize
import GdalWarp.Bindings.ConcurrentCopies
import GdalWarp.Bindings.Signals
import GdalWarp.Bindings.BadRequests
import GdalWarp.Bindings.PendingErrors
import GdalWarp.Bindings.OperationErrors
import GdalWarp.Bindings.ErrorTimes
import GdalWarp.Bindings.FailureCodes
import GdalWarp.Bindings.StringBuffers
import GdalWarp.Bindings.Retries
import GdalWarp.Bindings.JniResources
import GdalWarp.Bindings.ThreadScratch
import GdalWarp.Bindings.OpenCounts
import GdalWarp.Bindings.Progress
import GdalWarp.Bindings.CallRecords
import GdalWarp.Bindings.Lifetimes
import GdalWarp.Bindings.Provenance
import GdalWarp.Bindings.ReadScans
import GdalWarp.Bindings.WriteScans
import GdalWarp.Bindings.WorkingSets
import GdalWarp.Bindings.Reporting
import GdalWarp.Bindings.Handles
import GdalWarp.Bindings.Hashing
import GdalWarp.Bindings.LostSlots
import GdalWarp.Bindings.SerialCalls
import GdalWarp.Bindings.TimeBudget
import GdalWarp.Bindings.UseCounts
