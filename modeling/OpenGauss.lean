import OpenGauss.Undo.RecordRoundTrip
import OpenGauss.Undo.Navigate
import OpenGauss.Ustore.UpdateReplay
import OpenGauss.Ustore.PruneTheorem
import OpenGauss.Visibility.History
import OpenGauss.DoubleWrite.BatchCrash
import OpenGauss.SingleWrite.Crash
import OpenGauss.BloomFilter.NoFalseNegatives
import OpenGauss.CStore.SpaceReuse
import OpenGauss.CStore.RoughCheckSound
import OpenGauss.Checkpoint.MinRecLsn
import OpenGauss.Checkpoint.FullCheckpoint
import OpenGauss.MotGc.GcSafety
import OpenGauss.Segment.ExtentGroupRedo
import OpenGauss.Segment.InversePtr
import OpenGauss.CStore.XorCodec
import OpenGauss.CStore.StringCoder
import OpenGauss.Cfs.PageStore
import OpenGauss.Segment.ShrinkRun
import OpenGauss.Security.LedgerDigest
import OpenGauss.Security.RangeSearch
import OpenGauss.Security.Addresses
import OpenGauss.Xlog.BytePos
import OpenGauss.Partition.RangeRouting
import OpenGauss.BigInteger.Output
