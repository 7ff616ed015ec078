import MengSen.Lib.CondVar
import MengSen.Lib.Machine
import MengSen.Lib.Mem
import MengSen.Lib.OrdSet
import MengSen.Lib.Word
import MengSen.Net.Buffer
import MengSen.Net.BufferSpec
import MengSen.Net.BufferQueue
import MengSen.Net.BufferLimits
import MengSen.Lib.Bytes
import MengSen.Net.BufferInt
import MengSen.Net.BufferIntQueue
import MengSen.Net.BufferRead
import MengSen.Lib.Find
import MengSen.Net.BufferFind
import MengSen.Base.AsyncLogging
import MengSen.Base.AsyncLoggingInv
import MengSen.Base.AsyncLoggingStop
import MengSen.Net.EventLoop
import MengSen.Net.EventLoopQueue
import MengSen.Net.EventLoopQuit
import MengSen.Net.EventLoopWakeup
import MengSen.Base.Timestamp
import MengSen.Net.Timer
import MengSen.Net.TimerQueue
import MengSen.Net.TimerQueueSpec
import MengSen.Net.TimerQueueInv
import MengSen.Net.TimerQueueExpiry
import MengSen.Net.TimerQueueArming
import MengSen.Net.TimerQueueCut
import MengSen.Net.TimerLoop
import MengSen.Net.TimerQueueCancel
import MengSen.Net.TimerQueueBatch
import MengSen.Net.TimerQueueReset
import MengSen.Net.TimerQueueInterval
import MengSen.Net.TimerLoopSafe
import MengSen.Net.TimerLoopCancel
import MengSen.Base.BoundedBlockingQueue
import MengSen.Base.ThreadPool
import MengSen.Base.ThreadPoolInv
import MengSen.Base.ThreadPoolStop
import MengSen.Lib.Collect
import MengSen.Config.ConfigVar
import MengSen.Config.ConfigVarNotify
import MengSen.Config.Config
import MengSen.Coroutine.Schedule
import MengSen.Lib.LowerBound
import MengSen.Base.TimeZone
import MengSen.Base.TimeZoneRoundTrip
import MengSen.Lib.Load
import MengSen.Base.TimeZoneFile
import MengSen.Lib.SInt
import MengSen.Lib.Gregorian
import MengSen.Base.Date
import MengSen.Base.UtcTime
import MengSen.Log.BufferBase
import MengSen.Log.RingBuffer
import MengSen.Log.RingBufferInStep
import MengSen.Log.RingBufferRuns
import MengSen.Lib.Slots
import MengSen.Log.QueueBuffer
import MengSen.Log.QueueBufferInv
import MengSen.Log.QueueBufferStep
import MengSen.Log.QueueBufferPush
import MengSen.Log.QueueBufferPop
import MengSen.Log.QueueBufferGuarantee
import MengSen.Log.QueueBufferEarly
import MengSen.Log.Logger
import MengSen.Log.LoggerFlush
import MengSen.Log.LoggerRing
import MengSen.Log.LoggerQueue
import MengSen.Log.LoggerDestroyed
import MengSen.Lib.Lex
import MengSen.Base.StringPiece
import MengSen.Base.AppendFile
import MengSen.Base.LogFile
import MengSen.Config.ConfigVarFromString
import MengSen.Config.ConfDir
import MengSen.Lib.Numeral
import MengSen.Base.LogConvert
import MengSen.Base.LogStream
import MengSen.Base.TimestampConvert
import MengSen.Base.Logging
import MengSen.Lib.Layout
import MengSen.Base.TimeZoneEncode
import MengSen.Base.LogFormat
import MengSen.Log.LogLine
import MengSen.Log.LogLineEncode
import MengSen.Log.LogLineStringify
import MengSen.Log.LogLineRoundTrip
import MengSen.Lib.Nearest
import MengSen.Net.Channel
import MengSen.Net.ChannelLoop
import MengSen.Net.ChannelDispatch
import MengSen.Net.ChannelOrder
import MengSen.Base.CountDownLatch
import MengSen.Base.Thread
import MengSen.Lib.Locked
import MengSen.Log.RingBufferLock
import MengSen.Base.AsyncLoggingLines
import MengSen.Base.AsyncLogFile
import MengSen.Base.LogFileName
import MengSen.Lib.Varint
import MengSen.Proto.Message
import MengSen.Proto.AddressBook
import MengSen.Proto.AddressBookRoundTrip
import MengSen.Lib.Rolling
import MengSen.Log.FileWriter
import MengSen.Log.LoggerFiles
import MengSen.Config.Registry
import MengSen.Base.BlockingQueue
import MengSen.Base.ReadSmallFile
import MengSen.Base.ProcessInfo
import MengSen.Net.TimerLoopOwned
