import Bx.Archive.NameList
import Bx.Archive.PayloadCopy
import Bx.Archive.PendingMetadata
import Bx.Ash.Aliases
import Bx.Ash.PatternRemoval
import Bx.Ash.ScopeStackRuns
import Bx.Ash.VariableValueSound
import Bx.Comm.CommColumns
import Bx.Cpio.HardLinks
import Bx.Cpio.Partition
import Bx.Cpio.RoundTrip
import Bx.Crypto.ChecksumLines
import Bx.Crypto.Digest
import Bx.Cut.Cut
import Bx.Env.EnvSplit
import Bx.Expr.ParserSound
import Bx.Fetch.ContentDispositionSound
import Bx.Fetch.PathmapSound
import Bx.Fetch.PublicationSound
import Bx.Fetch.UrlMapStoreSound
import Bx.Fetch.UrlText
import Bx.Lib.ArgvPackerSound
import Bx.Lib.Base64Sound
import Bx.Lib.DdSize
import Bx.Lib.FdTransactionRestore
import Bx.Lib.HumanSize
import Bx.Lib.LineWriterSound
import Bx.Lib.ModeParseSound
import Bx.Lib.OrderedPublicationSound
import Bx.Lib.OutputSinkCapacity
import Bx.Lib.ParentsLayout
import Bx.Lib.WorkPoolStranded
import Bx.Mv.NumberedBackups
import Bx.Search.BinaryScanSound
import Bx.Search.ContextRollSound
import Bx.Search.IgnoreAnchorSound
import Bx.Search.MultilineSound
import Bx.Search.RawPresenceSound
import Bx.Search.RgDecodeReaderResync
import Bx.Search.SearchBufferedSound
import Bx.Search.TraverseSound
import Bx.Sort.KeepsData
import Bx.Split.SplitSound
import Bx.Tac.TacSound
import Bx.Tail.Head
import Bx.Tar.CodecInput
import Bx.Tar.NameMapSound
import Bx.Tar.Patterns
import Bx.Tar.ReadersAgree
import Bx.Tar.RecordScopeSound
import Bx.Tar.SparseRoundTrip
import Bx.Zip.LineEndings
import Bx.Zip.MoveSafe
import Bx.Zip.RecoveryScan
import Bx.Uniq.Uniq
