import SmartQuant.Lib.Runs
import SmartQuant.Common.PoolSlots
import SmartQuant.Common.SpscFifo
import SmartQuant.Log.WriterBounds
import SmartQuant.Log.ReaderBounds
import SmartQuant.Log.Snapshot
import SmartQuant.Md.BookHistory
import SmartQuant.Md.ChangeAsReplace
import SmartQuant.Md.MdSession
import SmartQuant.Md.PartialMessage
import SmartQuant.Md.PriceSentinel
import SmartQuant.Alpha.BucketTime
import SmartQuant.Alpha.DeltaWindow
import SmartQuant.Alpha.DeltaValue
import SmartQuant.Alpha.MidpointRule
import SmartQuant.Alpha.QuoteTraffic
import SmartQuant.Alpha.ScoreDefinition
import SmartQuant.Alpha.ThresholdWindow
import SmartQuant.Alpha.TradeVolume
import SmartQuant.Alpha.ZScoreBound
import SmartQuant.Risk.Cooldown
import SmartQuant.Oms.ExecutionReports
import SmartQuant.Oms.SplitFills
import SmartQuant.Oms.FailedSend
import SmartQuant.Engine.SingleOrder
import SmartQuant.Engine.Exposure
import SmartQuant.Engine.PositionTimeout
import SmartQuant.Engine.ForceClose
import SmartQuant.Engine.SignalOutcomes
import SmartQuant.Engine.SignalPrice
import SmartQuant.Engine.SingleFactor
import SmartQuant.Common.SpscSize
import SmartQuant.Common.TscClock
import SmartQuant.Log.ReaderCursor
import SmartQuant.Md.MarketSync
import SmartQuant.Md.BookMerge
import SmartQuant.Md.FeedRest
import SmartQuant.Md.Rebroadcast
import SmartQuant.Md.LoggerLoop
import SmartQuant.Oms.OrderProtocol
import SmartQuant.Risk.DayLedger
import SmartQuant.Engine.SignalGate
import SmartQuant.Engine.LiveSystem
import SmartQuant.Engine.LogTimes
import SmartQuant.Engine.BacktestReport
import SmartQuant.Engine.BacktestMirror
import SmartQuant.Alpha.EngineReset
