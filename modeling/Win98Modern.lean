import Win98Modern.Kernel64.FramesRun
import Win98Modern.Libsfs.NamespaceLinks
import Win98Modern.Libsfs.AllocRun
import Win98Modern.Kernel64.ObjectLedger
import Win98Modern.Kernel64.RunqueueRun
import Win98Modern.Kernel64.PortRun
import Win98Modern.Libsfs.AccessRun
import Win98Modern.Abi.Requests
import Win98Modern.Kcommon.TicketLockRun
import Win98Modern.Abi.PoolRun
import Win98Modern.Kernel64.IpReassemblyRun
import Win98Modern.NativeWin98.DiskConfinement
import Win98Modern.Abi.RingRun
import Win98Modern.Kernel64.LoaderRun
import Win98Modern.Supervisor.ChanAttestRun
import Win98Modern.Supervisor.KbcRun
import Win98Modern.Supervisor.DoorbellRun
import Win98Modern.Kernel64.CpuTlbRun
import Win98Modern.Kernel64.BlkAuthorityRun
import Win98Modern.Supervisor.DomainMemoryRun
import Win98Modern.Kernel64.ByteQueueRun
import Win98Modern.Kernel64.RegistryPaths
import Win98Modern.Kernel64.BlkPartScan
import Win98Modern.KernelEx.ThreadPoolRun
import Win98Modern.Kernel64.DnsRun
import Win98Modern.Win64.PeCover
import Win98Modern.Kernel64.VirtqRun
import Win98Modern.Abi.CreateRun
import Win98Modern.Kernel64.SemaphoresRun
import Win98Modern.Kernel64.NpfsRun
import Win98Modern.Kernel64.TcpAcceptRun
import Win98Modern.Trident.CharsetRun
import Win98Modern.Libsfs.InodeRawRun
import Win98Modern.Kernel64.PmmRun
import Win98Modern.Kernel64.HeapRun
import Win98Modern.Supervisor.PitRun
import Win98Modern.Trident.DomRangeRun
import Win98Modern.Kernel64.ClipboardRun
import Win98Modern.Libsfs.BitmapWords
import Win98Modern.Libsfs.Dotdot
import Win98Modern.Libsfs.JournalCommit
