import Leandros.Mm.Buddy.Complete
import Leandros.Mm.PageCache.Coherence
import Leandros.Mm.PageCache.WriteBack
import Leandros.Mm.Vmm.Device
import Leandros.Sched.Targets
import Leandros.Sched.Poll
import Leandros.Sched.Ksync.Wakes
import Leandros.Sched.SigFrame.RoundTrip
import Leandros.Sched.SigFrame.AltStack
import Leandros.Sched.Life.GroupExit
import Leandros.Sched.Life.Accounts
import Leandros.F2fs.Cache.Run
import Leandros.F2fs.Checkpoint.Fsync
import Leandros.Vfs.Locks.Exclusion
import Leandros.Vfs.Offsets.Transfers
import Leandros.Vfs.Eventfd
import Leandros.Xattr.Agreement
import Leandros.Sched.Nesting
import Leandros.Epoll.Instances
import Leandros.Uaccess
import Leandros.Drivers.R8169
