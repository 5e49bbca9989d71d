import Sol8.Disp.DispqRuns
import Sol8.Disp.PreemptRuns
import Sol8.Fs.Dnlc
import Sol8.Inet.FtableDefault
import Sol8.Inet.IpReassRuns
import Sol8.Inet.IreRefsRuns
import Sol8.Inet.SadbReplay
import Sol8.Inet.TcpSack
import Sol8.Io.BusraBounds
import Sol8.Io.StreamqRuns
import Sol8.Libc.Free
import Sol8.Os.CalloutRuns
import Sol8.Os.CompressBounds
import Sol8.Os.CyclicFire
import Sol8.Os.CyclicSoftintRuns
import Sol8.Os.Disksort
import Sol8.Os.FioRuns
import Sol8.Os.MemlistInsert
import Sol8.Os.MsgqRuns
import Sol8.Os.NodeidRuns
import Sol8.Os.RwlockRuns
import Sol8.Os.Share
import Sol8.Os.TaskqRuns
import Sol8.Os.VmemFit
import Sol8.Pcfs.Rwpcp
import Sol8.Rpc.DupreqRuns
import Sol8.Syscall.SemExit
import Sol8.Syscall.SemWakeup
import Sol8.Ufs.CgComplete
import Sol8.Ufs.HasHoles
import Sol8.UfsLog.Top
import Sol8.Vm.Anon
import Sol8.Vm.Swap
