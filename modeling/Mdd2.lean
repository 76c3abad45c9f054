import Mdd2.Proof.Clock
import Mdd2.Proof.Dispatch
import Mdd2.Proof.EndSign
import Mdd2.Proof.Pipeline
import Mdd2.Proof.LiveTracking
import Mdd2.Proof.UpRemain
import Mdd2.Proof.BuySafety
import Mdd2.Proof.QuerySlot
import Mdd2.Proof.Freshness
import Mdd2.Proof.LoggedFactors
import Mdd2.Proof.CancelSafety
import Mdd2.Proof.ShanghaiTwin
import Mdd2.Proof.OrderResponse
import Mdd2.Proof.Datagram
import Mdd2.Proof.DailyFile
import Mdd2.Proof.Converter
import Mdd2.Proof.Spsc
import Mdd2.Proof.LongestRun
import Mdd2.Proof.CatchUp
import Mdd2.Proof.SpeculatedFill
import Mdd2.Proof.RadixSort
import Mdd2.Proof.Kaiyuan
import Mdd2.Proof.BookLevels
import Mdd2.Proof.UserLocalID
import Mdd2.Proof.CrowdWindows
import Mdd2.Proof.Ownership
import Mdd2.Proof.ApproachSelect
import Mdd2.Proof.SessionTime
import Mdd2.Proof.Quotes
import Mdd2.Proof.TopOfBook
import Mdd2.Proof.VirtualOpen
import Mdd2.Proof.SnapClock
import Mdd2.Proof.ProgramBuys
import Mdd2.Proof.ProgramStream
import Mdd2.Proof.Replay
import Mdd2.Proof.EfviReceive
import Mdd2.Proof.OstStart
import Mdd2.Proof.ProgramFactors
import Mdd2.Proof.KaiyuanBounds
import Mdd2.Proof.ConfigFile
import Mdd2.Proof.Metadata
import Mdd2.Proof.ReplayRun
