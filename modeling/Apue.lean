import Apue.AlarmCat
import Apue.AnyTimer
import Apue.AnyTimerFiring
import Apue.AnyTimerIds
import Apue.AnyTimerLedger
import Apue.AnyTimerMain
import Apue.AnyTimerOrder
import Apue.Census
import Apue.CharPtr
import Apue.CharStream
import Apue.CreateJoin
import Apue.Decimal
import Apue.Du
import Apue.DuDots
import Apue.DuGlob
import Apue.DuGlobHeap
import Apue.DuHeap
import Apue.DuMain
import Apue.DuTotal
import Apue.Epoll
import Apue.EpollKernel
import Apue.FdTable
import Apue.FileSystem
import Apue.FileTree
import Apue.Flock
import Apue.FlockOnce
import Apue.ForkJoin
import Apue.Getopt
import Apue.Glob
import Apue.HeapOwned
import Apue.HelloPipe
import Apue.HttpClient
import Apue.HttpMain
import Apue.LineBuffer
import Apue.Lists
import Apue.Memory
import Apue.MutexCount
import Apue.Mycpy
import Apue.Numeral
import Apue.OptionLocals
import Apue.Options
import Apue.Ownership
import Apue.Pipe
import Apue.PipeCopy
import Apue.Poll
import Apue.PollRegister
import Apue.PoolBoard
import Apue.PoolClose
import Apue.PoolHandoff
import Apue.PoolLocks
import Apue.PoolMain
import Apue.PoolModel
import Apue.PoolNested
import Apue.PoolProgress
import Apue.PoolWaiting
import Apue.PoolWakeup
import Apue.Prime
import Apue.PrimeMain
import Apue.Reachability
import Apue.Redirect
import Apue.Reservoir
import Apue.Rounds
import Apue.Select
import Apue.SelectBuffer
import Apue.SelectEnds
import Apue.SemArr
import Apue.SharedCount
import Apue.SharedText
import Apue.SignalMask
import Apue.SignalRows
import Apue.SlowCat
import Apue.SlowCatRate
import Apue.Socket
import Apue.SocketMain
import Apue.StrCopy
import Apue.Suspend
import Apue.TextFiles
import Apue.TokenBucket
import Apue.TokenCalls
import Apue.TokenCat
import Apue.TokenFetch
import Apue.TokenMetered
import Apue.TokenRate
import Apue.TokenTable
import Apue.Transfer
import Apue.TruncLine
import Apue.UdpEcho
import Apue.UdpNetwork
import Apue.ValidatePasswd
