/-
  Order entry (`OES_xele.cpp`, `OES_ost.cpp`, `OrderRefLut.h`).

  `sendReqOrder` takes a request id, hands the order to the API of the broker, and
  then records which stock the order is of; these are separate steps of the tick
  thread that calls it.  The callbacks of the API run on a thread of its own, and
  may come at any time after the order was handed over.

  The table has no lock.  `setOrderRef` is two steps, its call and its return, and
  moves the table in between if it is too short for the id; what a callback reads
  of a table that is being moved, or that two calls have written while one of them
  moved it, is not defined.
-/
import Mdd2.MDD

namespace Mdd2

structure OrderRefLut where
  m_orderRefLut : List UInt32 := []

namespace OrderRefLut

/-- `m_orderRefLut.max_size()`. -/
def maxSize : ℕ := (2 ^ 63 - 1) / 4

/-- `m_orderRefLut.resize(size, -1)`, for a size that is not smaller. -/
def resize (lut : List UInt32) (size : ℕ) : List UInt32 :=
  lut ++ List.replicate (size - lut.length) (-1)

def orderRefLookup (t : OrderRefLut) (orderRef : ℕ) : UInt32 :=
  if h : orderRef < t.m_orderRefLut.length then t.m_orderRefLut[orderRef] else -1

/-- `setOrderRef` resizes the table. -/
def grows (t : OrderRefLut) (orderRef : ℕ) : Bool :=
  orderRef ≥ t.m_orderRefLut.length && orderRef < maxSize

def setOrderRef (t : OrderRefLut) (orderRef : ℕ) (userLocalID : UInt32) : OrderRefLut :=
  if orderRef ≥ t.m_orderRefLut.length then
    if orderRef ≥ maxSize then t
    else ⟨(resize t.m_orderRefLut (orderRef + 1)).set orderRef userLocalID⟩
  else ⟨t.m_orderRefLut.set orderRef userLocalID⟩

end OrderRefLut

namespace OES

/-- The implementations with a broker: `XC` and `NE` use the Xele API. -/
inductive Api where
  | xele
  | ost
  deriving DecidableEq

/-- An order, or a batch of orders of one stock. -/
structure ReqOrder where
  /-- `inputOrder.OrderRef` of an OST order -/
  orderRef : Int32
  userLocalID : UInt32
  deriving DecidableEq

/-- What a callback reads to find the order. -/
structure Response where
  nRequestID : Int32
  orderRef : Int32

/-- A request id as `size_t`. -/
def sizeT (requestID : Int32) : ℕ := Word.toUnsigned 64 requestID.toInt

/-- A request as the API has it. -/
structure Request where
  requestID : Int32
  reqOrder : ReqOrder
  deriving DecidableEq

/-- How far a call is: it has its id, the API has the order, or `setOrderRef` is in
    progress. -/
inductive Phase where
  | taken
  | handed
  | recording
  deriving DecidableEq

/-- A call of `sendReqOrder` or of `sendReqOrderBatch` in progress. -/
structure Call extends Request where
  phase : Phase

/-- The order with the request id in it. -/
def Api.fill (api : Api) (requestID : Int32) (reqOrder : ReqOrder) : ReqOrder :=
  match api with
  | .xele => reqOrder
  | .ost => { reqOrder with orderRef := requestID }

/-- The id that the callbacks look up. -/
def Api.rspRequestID (api : Api) (rsp : Response) : Int32 :=
  match api with
  | .xele => rsp.nRequestID
  | .ost => rsp.orderRef

/-- The response carries the id of the request. -/
def Api.Answers (api : Api) (req : Request) (rsp : Response) : Prop :=
  match api with
  | .xele => rsp.nRequestID = req.requestID
  | .ost => rsp.orderRef = req.reqOrder.orderRef

instance (api : Api) (req : Request) (rsp : Response) : Decidable (api.Answers req rsp) := by
  cases api <;> exact instDecidableEqInt32 _ _

structure State where
  /-- the atomic counter of request ids -/
  requestID : UInt32
  orderRefLut : OrderRefLut
  /-- the threads in `setOrderRef`, and whether they resize the table -/
  writers : List (ℕ × Bool)
  /-- two threads have been in `setOrderRef` at once, and one of them resized the table -/
  raced : Bool
  /-- the call in progress on each thread that sends orders -/
  calls : ℕ → Option Call
  /-- what was handed to the API -/
  handed : List Request

namespace State

def init : State where
  requestID := 1
  orderRefLut := {}
  writers := []
  raced := false
  calls := fun _ => none
  handed := []

/-- No thread resizes the table, and none has done so against another one. -/
def Stable (w : State) : Prop := w.raced = false ∧ ∀ p ∈ w.writers, p.2 = false

instance (w : State) : Decidable w.Stable := inferInstanceAs (Decidable (_ ∧ _))

/-- `userLocalID` of the response, as the callbacks set it, if that is defined. -/
def userLocalID (w : State) (api : Api) (rsp : Response) : Option UInt32 :=
  if w.Stable then some (w.orderRefLut.orderRefLookup (sizeT (api.rspRequestID rsp))) else none

end State

inductive Event where
  /-- the thread begins a call that takes `nBatch` ids (one, for `sendReqOrder`) -/
  | take (thread : ℕ) (reqOrder : ReqOrder) (nBatch : ℕ)
  | hand (thread : ℕ)
  /-- the thread calls `setOrderRef` -/
  | enter (thread : ℕ)
  /-- the thread returns from it -/
  | record (thread : ℕ)
  /-- a login, a query or a cancel takes an id -/
  | other
  | respond (req : Request) (rsp : Response)

/-- The number of ids taken. -/
def Event.ids : Event → ℕ
  | .take _ _ nBatch => nBatch
  | .other => 1
  | .hand _ | .enter _ | .record _ | .respond _ _ => 0

namespace State

def Enabled (api : Api) (w : State) : Event → Prop
  | .take thread _ nBatch => w.calls thread = none ∧ 0 < nBatch
  | .hand thread => ∃ c, w.calls thread = some c ∧ c.phase = .taken
  | .enter thread => ∃ c, w.calls thread = some c ∧ c.phase = .handed
  | .record thread => ∃ c, w.calls thread = some c ∧ c.phase = .recording
  | .other => True
  | .respond req rsp => req ∈ w.handed ∧ api.Answers req rsp

def next (api : Api) (w : State) : Event → State
  | .take thread reqOrder nBatch =>
    let requestID := w.requestID.toInt32
    { w with
      requestID := w.requestID + UInt32.ofNat nBatch
      calls := Function.update w.calls thread
        (some ⟨⟨requestID, api.fill requestID reqOrder⟩, .taken⟩) }
  | .hand thread =>
    match w.calls thread with
    | none => w
    | some c =>
      { w with
        calls := Function.update w.calls thread (some { c with phase := .handed })
        handed := c.toRequest :: w.handed }
  | .enter thread =>
    match w.calls thread with
    | none => w
    | some c =>
      let grows := w.orderRefLut.grows (sizeT c.requestID)
      { w with
        calls := Function.update w.calls thread (some { c with phase := .recording })
        writers := (thread, grows) :: w.writers
        raced := w.raced || w.writers.any fun p => grows || p.2 }
  | .record thread =>
    match w.calls thread with
    | none => w
    | some c =>
      { w with
        calls := Function.update w.calls thread none
        writers := w.writers.filter (·.1 ≠ thread)
        orderRefLut := w.orderRefLut.setOrderRef (sizeT c.requestID) c.reqOrder.userLocalID }
  | .other => { w with requestID := w.requestID + 1 }
  | .respond _ _ => w

end State

end OES

end Mdd2
