import Xv6.LogCrashProofs
import Xv6.LogSpaceProofs
import Xv6.PipeWakeupProofs
import Xv6.SleepWakeupProofs
import Xv6.IcacheCoherenceProofs
import Xv6.FileWritersProofs
import Xv6.IdeQueueProofs
import Xv6.RawDiskProofs
import Xv6.ChildHandoverProofs
import Xv6.MkfsNamesProofs
import Xv6.SchedulerProofs
import Xv6.SbrkProofs
import Xv6.FilewriteEffectProofs
import Xv6.DeviceSeekProofs
import Xv6.DescriptorKindProofs
import Xv6.LibcCallsProofs
import Xv6.LinkOverflowProofs
import Xv6.ClockProofs
import Xv6.MpTableProofs
import Xv6.ConsoleIndexProofs
import Xv6.CopyoutProofs
import Xv6.WishExtendProofs
import Xv6.MappagesProofs
import Xv6.KallocProofs
import Xv6.MemmoveProofs
