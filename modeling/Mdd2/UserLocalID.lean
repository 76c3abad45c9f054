/-
  The ids of the requests to the broker (`OES_xele.cpp`).

  `sendReqOrder`, `sendReqOrderBatch` and `sendReqCancel` take request ids from one
  counter, put local ids into the request, and pass it to the API under the first
  of its request ids.  Any number of threads run these calls, each step by step.
-/
import Mathlib

namespace Mdd2

namespace OES

namespace Xele

inductive Req where
  | sendReqOrder
  | sendReqOrderBatch (BatchOrderQty : UInt32)
  | sendReqCancel

/-- The number of request ids a call takes, which is that of its local ids. -/
def Req.nBatch : Req → UInt32
  | .sendReqOrder => 1
  | .sendReqOrderBatch BatchOrderQty => BatchOrderQty
  | .sendReqCancel => 1

/-- A call that has taken its request ids. -/
structure Call where
  requestID : Int32
  nBatch : UInt32
  /-- the number of local ids put into the request so far -/
  i : ℕ

structure State where
  g_requestID : UInt32
  g_maxUserLocalID : UInt32
  calls : ℕ → Option Call
  /-- all values put into a `UserLocalID` -/
  userLocalIDs : List UInt32
  /-- the ids passed to the API -/
  requestIDs : List Int32

namespace State

def init : State where
  g_requestID := 1
  g_maxUserLocalID := 0
  calls := fun _ => none
  userLocalIDs := []
  requestIDs := []

/-- `callReqLogin`, and `onRspLogin` for it. -/
def login (w : State) (MaxUserLocalID : UInt32) : State :=
  { w with
    g_requestID := w.g_requestID + 1
    requestIDs := w.g_requestID.toInt32 :: w.requestIDs
    g_maxUserLocalID := MaxUserLocalID }

end State

inductive Event where
  | fetchAdd (thread : ℕ) (req : Req)
  | putUserLocalID (thread : ℕ)
  | callApi (thread : ℕ)

/-- The number of request ids taken. -/
def Event.ids : Event → ℕ
  | .fetchAdd _ req => req.nBatch.toNat
  | .putUserLocalID _ | .callApi _ => 0

namespace State

def Enabled (w : State) : Event → Prop
  | .fetchAdd thread req => w.calls thread = none ∧ 1 ≤ req.nBatch
  | .putUserLocalID thread => ∃ c, w.calls thread = some c ∧ c.i < c.nBatch.toNat
  | .callApi thread => ∃ c, w.calls thread = some c ∧ c.i = c.nBatch.toNat

def next (w : State) : Event → State
  | .fetchAdd thread req =>
    { w with
      g_requestID := w.g_requestID + req.nBatch
      calls := Function.update w.calls thread (some ⟨w.g_requestID.toInt32, req.nBatch, 0⟩) }
  | .putUserLocalID thread =>
    match w.calls thread with
    | none => w
    | some c =>
      let userLocalIDBase := w.g_maxUserLocalID + c.requestID.toUInt32
      { w with
        userLocalIDs := (userLocalIDBase + UInt32.ofNat c.i) :: w.userLocalIDs
        calls := Function.update w.calls thread (some { c with i := c.i + 1 }) }
  | .callApi thread =>
    match w.calls thread with
    | none => w
    | some c =>
      { w with
        requestIDs := c.requestID :: w.requestIDs
        calls := Function.update w.calls thread none }

end State

end Xele

end OES

end Mdd2
