/-
  The start of the OST builds (`OES_ost.cpp`, `MDS_ost.cpp`).

  The thread of the trade API runs the callbacks, one at a time: the login is
  followed by a query for each exchange, and a record of an answer is appended to
  `g_marketStatics`.  The main thread waits for the login, then for both answers,
  and publishes the records to the stocks.  The flags are atomic; the ids of the
  session and the records are not, and are read without a lock.
-/
import Mdd2.MDD
import Mdd2.StockState

namespace Mdd2

namespace OstStart

/-- `UT_EXG_SSE` and `UT_EXG_SZSE`. -/
inductive Exchange where
  | SSE
  | SZSE
  deriving DecidableEq

/-- `CUTDepthMarketDataField`; the exchange is `none` for all others. -/
structure DepthMarketData where
  ExchangeID : Option Exchange
  stat : Stat

/-- What the server sends: the ids of the session, and the answer to each query. -/
structure Server where
  frontID : ℤ
  sessionID : ℤ
  answer : Exchange → List DepthMarketData

/-- Where the thread of the API is, in a callback or between two. -/
inductive Spi where
  | idle
  /-- `m_loginOK` is stored -/
  | loginStored
  /-- and `m_frontID` -/
  | frontStored
  /-- and `m_sessionID` -/
  | sessionStored
  /-- the first query is made -/
  | queried
  /-- the last record of an answer is appended, and is not counted -/
  | counting
  deriving DecidableEq

/-- A query, with the records that are still to come. -/
inductive Query where
  | unasked
  | answering (rest : List DepthMarketData)
  | answered
  | failed

/-- Where the main thread is, with the records that it still publishes. -/
inductive Main where
  | waitLogin
  | waitStatics
  | publish (rest : List DepthMarketData)
  | started

structure State where
  main : Main
  spi : Spi
  /-- the login was answered -/
  loggedIn : Bool
  queries : Exchange → Query
  m_loginOK : Bool
  m_frontID : ℤ
  m_sessionID : ℤ
  g_marketStatics : List DepthMarketData
  g_staticOK : ℕ
  states : Int32 → StockState
  /-- the ids in the cancel request of a stock -/
  cancels : Int32 → Option (ℤ × ℤ)
  /-- all records that were published -/
  published : List DepthMarketData

def init (states : Int32 → StockState) : State where
  main := .waitLogin
  spi := .idle
  loggedIn := false
  queries _ := .unasked
  m_loginOK := false
  m_frontID := 0
  m_sessionID := 0
  g_marketStatics := []
  g_staticOK := 0
  states := states
  cancels _ := none
  published := []

/-- A record of an answer arrives. -/
def State.answer (w : State) (e : Exchange) (r : DepthMarketData) (rest : List DepthMarketData) :
    State :=
  let w := { w with
    queries := Function.update w.queries e (if rest = [] then .answered else .answering rest) }
  if r.ExchangeID = none then w
  else { w with
    g_marketStatics := w.g_marketStatics ++ [r]
    spi := if rest = [] then .counting else .idle }

/-- The steps of the callbacks. -/
inductive CallbackStep (server : Server) : State → State → Prop
  | loginError {w : State} : w.spi = .idle → w.loggedIn = false →
      CallbackStep server w { w with loggedIn := true }
  | login {w : State} : w.spi = .idle → w.loggedIn = false →
      CallbackStep server w { w with loggedIn := true, m_loginOK := true, spi := .loginStored }
  | storeFront {w : State} : w.spi = .loginStored →
      CallbackStep server w { w with m_frontID := server.frontID, spi := .frontStored }
  | storeSession {w : State} : w.spi = .frontStored →
      CallbackStep server w { w with m_sessionID := server.sessionID, spi := .sessionStored }
  | querySSE {w : State} : w.spi = .sessionStored →
      CallbackStep server w { w with
        queries := Function.update w.queries .SSE (.answering (server.answer .SSE))
        spi := .queried }
  | querySSEError {w : State} : w.spi = .sessionStored →
      CallbackStep server w { w with spi := .idle }
  | querySZSE {w : State} : w.spi = .queried →
      CallbackStep server w { w with
        queries := Function.update w.queries .SZSE (.answering (server.answer .SZSE))
        spi := .idle }
  | querySZSEError {w : State} : w.spi = .queried →
      CallbackStep server w { w with spi := .idle }
  | answer {w : State} {e : Exchange} {r : DepthMarketData} {rest : List DepthMarketData} :
      w.spi = .idle → w.queries e = .answering (r :: rest) →
      CallbackStep server w (w.answer e r rest)
  | count {w : State} : w.spi = .counting →
      CallbackStep server w { w with g_staticOK := w.g_staticOK + 1, spi := .idle }
  | answerError {w : State} {e : Exchange} {rest : List DepthMarketData} : w.spi = .idle →
      w.queries e = .answering rest →
      CallbackStep server w { w with queries := Function.update w.queries e .failed }

/-- `MDD::handleStatic`, and the part of `onStatic` that asks for the ids of the session. -/
def State.handleStatic (market : Market) (stockCodes : List Int32) (w : State)
    (r : DepthMarketData) : State :=
  let id := lookupStockId market stockCodes r.stat.stock
  if id = -1 then w
  else { w with
    states := Function.update w.states id ((w.states id).onStatic (.ost market) r.stat)
    cancels := Function.update w.cancels id
      (if r.stat.upperLimitPrice = 0 then w.cancels id else some (w.m_frontID, w.m_sessionID)) }

/-- The steps of the main thread. -/
inductive MainStep (market : Market) (stockCodes : List Int32) : State → State → Prop
  | isStarted {w : State} : w.main = .waitLogin → w.m_loginOK →
      MainStep market stockCodes w { w with main := .waitStatics }
  | getDepthMarketData {w : State} : w.main = .waitStatics → 2 ≤ w.g_staticOK →
      MainStep market stockCodes w { w with main := .publish w.g_marketStatics }
  | handleStatic {w : State} {r : DepthMarketData} {rest : List DepthMarketData} :
      w.main = .publish (r :: rest) →
      MainStep market stockCodes w { w.handleStatic market stockCodes r with
        main := .publish rest
        published := w.published ++ [r] }
  | ostStart {w : State} : w.main = .publish [] →
      MainStep market stockCodes w { w with main := .started }

/-- The states of the start. -/
inductive Reachable (market : Market) (stockCodes : List Int32) (server : Server)
    (states : Int32 → StockState) : State → Prop
  | init : Reachable market stockCodes server states (init states)
  | callback {w v : State} : Reachable market stockCodes server states w → CallbackStep server w v →
      Reachable market stockCodes server states v
  | main {w v : State} : Reachable market stockCodes server states w →
      MainStep market stockCodes w v → Reachable market stockCodes server states v

end OstStart

end Mdd2
