import Emulator.Qemud.Resync
import Emulator.Qemud.MuxRun
import Emulator.Skin.OnePiece
import Emulator.Memcheck.ProcessInv
import Emulator.Memcheck.CallStack
import Emulator.Telephony.Deliver
import Emulator.Telephony.Receiver
import Emulator.Telephony.CallTimers
import Emulator.Savevm.BadStream
import Emulator.Slirp.IfQueueRun
import Emulator.Proxy.RequestRewrite
import Emulator.Slirp.TcpReassRun
import Emulator.Slirp.IpReassRun
import Emulator.Shaper.ShaperRate
import Emulator.Shaper.NetDelayRun
import Emulator.Arm.Banks
import Emulator.Timers.QemuTimer
import Emulator.Qemud.BadFrame
import Emulator.Block.Commit
import Emulator.Skin.Iterator
import Emulator.Skin.SharedInv
import Emulator.Telephony.SimCard
import Emulator.Telephony.Operators
import Emulator.Telephony.Address
import Emulator.Telephony.BcdNumber
import Emulator.Telephony.MessageRoundTrip
import Emulator.Telephony.UserDataRef
import Emulator.Slirp.Checksum
import Emulator.Slirp.UrgentSend
import Emulator.Memcheck.Invalidate
import Emulator.Exec.RangeInvalidation
import Emulator.Goldfish.EventPages
import Emulator.Goldfish.EventQueue
import Emulator.Savevm.FieldTable
import Emulator.Arm.ShortDescriptor
import Emulator.Chardev.PipeFlow
import Emulator.Goldfish.NandReadErrors
import Emulator.Goldfish.NandArray
import Emulator.Savevm.LoadEnds
import Emulator.Timers.GuestTicks
import Emulator.Arm.CarryChain
import Emulator.Arm.RegisterShifts
import Emulator.Arm.TlbRefill
import Emulator.Arm.NeonFlags
import Emulator.Arm.NeonWords
import Emulator.Arm.NeonWiden
import Emulator.Telephony.SeptetWriter
import Emulator.Telephony.Ucs2
import Emulator.Memcheck.AddrArray
import Emulator.Exec.GuestPc
import Emulator.Exec.RamBlocks
import Emulator.Tcg.Pool
import Emulator.Qcow2.RefcountRuns
import Emulator.Tcg.OpRuns
import Emulator.Exec.ExecRuns
