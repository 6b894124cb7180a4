import LinuxToradex.Apparmor.Match
import LinuxToradex.Dvfs.Safety
import LinuxToradex.Hashtable.RoundTrip
import LinuxToradex.Idr.Runs
import LinuxToradex.Iovmm.Threads
import LinuxToradex.IpTables.Safety
import LinuxToradex.Jffs2.Rtime
import LinuxToradex.Lib.Crc32
import LinuxToradex.Lib.Div64
import LinuxToradex.Lib.Kstrtox
import LinuxToradex.Lib.LruCache
import LinuxToradex.Lib.Vsprintf
import LinuxToradex.Lmb.Alloc
import LinuxToradex.Locks.Deadlock
import LinuxToradex.Mac80211.Runs
import LinuxToradex.Md.Raid5
import LinuxToradex.Memblock.Find
import LinuxToradex.Memblock.Limit
import LinuxToradex.Nvhost.SyncQueue
import LinuxToradex.Nvhost.WaitlistProcess
import LinuxToradex.Nvmap.CarveoutRuns
import LinuxToradex.Nvmap.Mru
import LinuxToradex.PageAlloc.Zone
import LinuxToradex.Rbtree.Runs
import LinuxToradex.Resource.Split
import LinuxToradex.Sctp.GapAck
import LinuxToradex.Selinux.Netlabel
import LinuxToradex.Sem.Atomic
import LinuxToradex.Sem.Runs
import LinuxToradex.SocketFilter.Division
import LinuxToradex.SocketFilter.Netlink
import LinuxToradex.SocketFilter.Scratch
import LinuxToradex.Timer.NextInterrupt
import LinuxToradex.Timer.Slack
import LinuxToradex.Xfrm.Esn
import LinuxToradex.Xfrm.Input
