import Omnidroid.Lib.Run
import Omnidroid.Binder.Buffers
import Omnidroid.Binder.Pins
import Omnidroid.Binder.Calls
import Omnidroid.Kernel.Pipe
import Omnidroid.Kernel.Futex
import Omnidroid.Kernel.FutexTidy
import Omnidroid.Kernel.PiFutex
import Omnidroid.Kernel.SeccompStack
import Omnidroid.Kernel.Flock
import Omnidroid.Kernel.Locks
import Omnidroid.Kernel.Epoll
import Omnidroid.Kernel.Fds
import Omnidroid.Kernel.Pids
import Omnidroid.Kernel.Shm
import Omnidroid.Kernel.Timers
import Omnidroid.Hal.Picture
import Omnidroid.Hal.RoundTrip
import Omnidroid.Jni.Calls
import Omnidroid.Mm.Mremap
import Omnidroid.Mm.Names
import Omnidroid.Mm.FileMap
import Omnidroid.Elf.Relocate
import Omnidroid.Elf.LoadRun
import Omnidroid.Mem.Cache
import Omnidroid.Mem.Carve
import Omnidroid.Bionic.Mutex
import Omnidroid.Bionic.Sem
import Omnidroid.Bionic.RwWait
import Omnidroid.Bionic.Cond
import Omnidroid.Bionic.Once
import Omnidroid.Bionic.Sort
import Omnidroid.Bionic.Strtol
import Omnidroid.Bionic.Strftime
import Omnidroid.Bionic.TlsRun
import Omnidroid.Bionic.PrintfFloat
import Omnidroid.Apk.Cache
import Omnidroid.Apk.CacheInv
import Omnidroid.Apk.CacheRun
import Omnidroid.Apk.Read
import Omnidroid.Props.Area
import Omnidroid.Props.Publish
import Omnidroid.Vfs.OwnersLog
import Omnidroid.Vfs.BindsRun
import Omnidroid.Vfs.BpfFs
import Omnidroid.Kernel.Signals
import Omnidroid.Net.LoopbackRun
import Omnidroid.Net.PairRun
import Omnidroid.Binder.Receive
import Omnidroid.Binder.Relayouts
import Omnidroid.Binder.Named
import Omnidroid.Binder.Demand
import Omnidroid.Kernel.TimerFd
import Omnidroid.Kernel.TimerSettime
import Omnidroid.Kernel.WaitMask
import Omnidroid.Elf.Aps2Encode
import Omnidroid.Elf.SymbolHash
import Omnidroid.Elf.EhFrameLayout
import Omnidroid.Elf.Vaddr
import Omnidroid.Elf.Extent
import Omnidroid.Android.ArgsFound
import Omnidroid.Vfs.RootLayer
import Omnidroid.Mem.FindFree
import Omnidroid.Mem.ListingHeld
import Omnidroid.Mem.ScanCommit
import Omnidroid.Texture.Decode
import Omnidroid.Apk.ManifestEnds
import Omnidroid.Mem.Ceiling
import Omnidroid.Vfs.Resolve
