import FwkMlib.Lib.Ring
import FwkMlib.Lib.ForLoop
import FwkMlib.Lib.Path
import FwkMlib.Lib.Ledger
import FwkMlib.Lib.Guarded
import FwkMlib.Lib.Pool
import FwkMlib.Lib.Script
import FwkMlib.Lib.Trace
import FwkMlib.Lib.Owned
import FwkMlib.Lib.Serial
import FwkMlib.Lib.Pieces
import FwkMlib.Lib.OrdMap
import FwkMlib.Lib.Bytes
import FwkMlib.Lib.Intervals
import FwkMlib.Lib.RingBuffer
import FwkMlib.Lib.Stride
import FwkMlib.Mlist.Link
import FwkMlib.Mlist.Lists
import FwkMlib.Mlist.ForEach
import FwkMlib.Mmem.Debug
import FwkMlib.Mmem.Layout
import FwkMlib.Mmem.Tracks
import FwkMlib.Mmem.Allocator
import FwkMlib.Mmem.Calls
import FwkMlib.Mmem.Data
import FwkMlib.Mmem.Steps
import FwkMlib.Mmem.Guard
import FwkMlib.Mmem.Dump
import FwkMlib.Mmem.Report
import FwkMlib.Mmem.Atomic
import FwkMlib.Mmem.Fit
import FwkMlib.Mmem.FreeAll
import FwkMlib.Mmem.Locked
import FwkMlib.Mmem.LockedRun
import FwkMlib.Netx.Ctl
import FwkMlib.Netx.CtlSpec
import FwkMlib.Netx.Inv
import FwkMlib.Netx.Refine
import FwkMlib.Netx.Wait
import FwkMlib.Netx.WaitSpec
import FwkMlib.Netx.Reach
import FwkMlib.Netx.Handles
import FwkMlib.Netx.CtlRun
import FwkMlib.Netx.WaitRun
import FwkMlib.Netx.WaitReport
import FwkMlib.Netx.WaitFds
import FwkMlib.Netx.SockaddrPort
import FwkMlib.Netx.Sockaddr
import FwkMlib.Netx.SockaddrFound
import FwkMlib.Netx.Registry
import FwkMlib.Netx.SocketSpec
import FwkMlib.Netx.SocketOpen2
import FwkMlib.Netx.LocalIp
import FwkMlib.Osal.LockFreeQueue
import FwkMlib.Osal.QueueInv
import FwkMlib.Osal.QueueRun
import FwkMlib.Osal.QueueBounds
import FwkMlib.Osal.MqStep
import FwkMlib.Osal.MqInv
import FwkMlib.Osal.MqLocks
import FwkMlib.Osal.MqSafe
import FwkMlib.Osal.MqDestroy
import FwkMlib.Osal.MqLive
import FwkMlib.Osal.MqWake
import FwkMlib.Osal.MqChannel
import FwkMlib.Osal.MqProgress
import FwkMlib.Osal.MqCreate
import FwkMlib.Osal.MqTwin
import FwkMlib.Osal.MqBuffer
import FwkMlib.Osal.MqDeadline
import FwkMlib.Osal.MqName
import FwkMlib.Osal.Task
import FwkMlib.Osal.TaskRun
import FwkMlib.Mmem.LockDiscipline
import FwkMlib.Kcp.Segment
import FwkMlib.Kcp.Ikcp
import FwkMlib.Kcp.Flush
import FwkMlib.Kcp.Receive
import FwkMlib.Kcp.Send
import FwkMlib.Kcp.Input
import FwkMlib.Kcp.Answer
import FwkMlib.Kcp.Flow
import FwkMlib.Kcp.Link
import FwkMlib.Kcp.Deliver
