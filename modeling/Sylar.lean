import Sylar.Lib.Machine
import Sylar.Lib.OrderedSet
import Sylar.Lib.Board
import Sylar.Lib.Tickets
import Sylar.Lib.Tally
import Sylar.Lib.Custody
import Sylar.Lib.HashSet
import Sylar.Lib.LockOrder
import Sylar.Lib.OrderedMap
import Sylar.Timer
import Sylar.TimerSet
import Sylar.TimerExpire
import Sylar.TimerStep
import Sylar.TimerHistory
import Sylar.TimerDue
import Sylar.TimerFront
import Sylar.TimerRace
import Sylar.Task
import Sylar.IOManager
import Sylar.IOManagerRegs
import Sylar.IOManagerGood
import Sylar.IOManagerSpec
import Sylar.IOManagerStep
import Sylar.IOManagerContexts
import Sylar.IOManagerHistory
import Sylar.IOManagerKernel
import Sylar.IOManagerInterest
import Sylar.IOManagerDispatch
import Sylar.IOManagerTable
import Sylar.Scheduler
import Sylar.SchedulerCases
import Sylar.SchedulerHolds
import Sylar.SchedulerExclusive
import Sylar.SchedulerQueue
import Sylar.SchedulerCounts
import Sylar.SchedulerStopping
import Sylar.SchedulerTurn
import Sylar.SchedulerPrivate
import Sylar.Reactor
import Sylar.ReactorPosted
import Sylar.ReactorSane
import Sylar.ReactorWatched
import Sylar.ReactorDrain
import Sylar.Solo
import Sylar.SoloLife
import Sylar.SoloSteady
import Sylar.SoloSound
import Sylar.SoloReuse
import Sylar.SoloNotes
import Sylar.SoloWakeups
import Sylar.FiberSwitch
import Sylar.FiberCurrent
import Sylar.FiberWorkers
import Sylar.FdManager
import Sylar.Hook
import Sylar.HookEffect
import Sylar.HookNonblock
import Sylar.HookTransparent
import Sylar.FdTable
import Sylar.FdTableRace
import Sylar.ConfigVar
import Sylar.LogFormatter
import Sylar.LogFormatterGrammar
import Sylar.LogAppender
import Sylar.Logger
import Sylar.Yaml
import Sylar.YamlText
import Sylar.LexicalCast
import Sylar.LogDefine
import Sylar.LogIniter
import Sylar.DoIo
import Sylar.DoIoTimeout
import Sylar.TimerArming
import Sylar.TimerRearm
import Sylar.TimerEarly
import Sylar.HookSleep
import Sylar.HookTimeout
import Sylar.IdleTimeout
import Sylar.HookClose
import Sylar.HookReuse
import Sylar.Affinity
import Sylar.IOManagerWakeup
import Sylar.DoIoCalls
import Sylar.TimerOnce
import Sylar.DoIoTimers
import Sylar.DoIoFired
import Sylar.DoIoReturn
import Sylar.Connect
import Sylar.ConnectSuccess
import Sylar.Lib.Keyed
import Sylar.Config
import Sylar.ConfigLoad
import Sylar.ConfigName
import Sylar.ConfigRuns
import Sylar.LexicalString
import Sylar.LogFormatterEscape
import Sylar.AddressLookup
import Sylar.Lib.Inet
import Sylar.Address
import Sylar.IPv6Text
import Sylar.IPv4Subnet
import Sylar.IPv6Subnet
import Sylar.TimerStart
import Sylar.Lib.Lexicographic
import Sylar.AddressKind
import Sylar.AddressOrder
import Sylar.AddressCopy
import Sylar.UnixText
import Sylar.Lib.Dotted
import Sylar.IPv4Text
import Sylar.Lib.Ones
import Sylar.Lib.Multimap
import Sylar.Interfaces
import Sylar.Tickle
import Sylar.TickleAwake
import Sylar.TickleQueue
import Sylar.TickleTimers
import Sylar.ScopedLock
import Sylar.Locks
import Sylar.LoggerManager
import Sylar.LoggerYaml
import Sylar.FiberLife
import Sylar.SchedulerProgress
import Sylar.ThreadRuns
import Sylar.LogDelivery
import Sylar.ConfigListeners
