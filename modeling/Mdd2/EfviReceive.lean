/-
  The receiver of a UDP feed (`ostmd/efvi_receive_base.cpp`).

  The packet buffers circulate: a free one is posted to the adapter, which writes
  a frame into it and queues an event; the thread polls events, passes the frames
  on, and frees the buffers.  The free buffers are a stack, linked through the
  buffers.  A buffer is named by its id.

  The adapter takes its steps at any time between those of the thread.  It is driven by the
  library `ef_vi`, a parameter: the receiver relies on what is documented of it
  (`EfVi.Documented`).
-/
import Mdd2.Ostmd

namespace Mdd2

namespace EfviReceive

/-! ## Buffers -/

def REFILL_BATCH_SIZE : ℕ := 16

/-- `resources`: the links of the buffers, and the stack of the free ones. -/
structure Resources where
  next : ℕ → Option ℕ
  free_pkt_bufs : Option ℕ
  free_pkt_bufs_n : ℤ

/-- `calloc`. -/
def Resources.zero : Resources := ⟨fun _ => none, none, 0⟩

def pktBufFree (res : Resources) (i : ℕ) : Resources where
  next := Function.update res.next i res.free_pkt_bufs
  free_pkt_bufs := some i
  free_pkt_bufs_n := res.free_pkt_bufs_n + 1

/-- The buffers that the loop of `refill_rx_ring` posts; `none` is an access through a null
    pointer. -/
def postBatch : ℕ → Resources → Option (List ℕ × Resources)
  | 0, res => some ([], res)
  | k + 1, res => do
    let i ← res.free_pkt_bufs
    let res := { res with
      free_pkt_bufs := res.next i
      free_pkt_bufs_n := res.free_pkt_bufs_n - 1 }
    let (ids, res) ← postBatch k res
    some (i :: ids, res)

/-- `refill_rx_ring`, with the space of the ring. -/
def refillRxRing (space : ℤ) (res : Resources) : Option (List ℕ × Resources) :=
  if space < REFILL_BATCH_SIZE ∨ res.free_pkt_bufs_n < REFILL_BATCH_SIZE then some ([], res)
  else postBatch REFILL_BATCH_SIZE res

/-- The loop of `init` that fills the ring, for a number of rounds. -/
def fillRxRing (pkt_bufs_n : ℕ) : ℕ → List ℕ → Resources → Option (List ℕ × Resources)
  | 0, _, _ => none
  | rounds + 1, posted, res =>
    if (pkt_bufs_n - posted.length : ℤ) > REFILL_BATCH_SIZE then do
      let (ids, res) ← refillRxRing (pkt_bufs_n - posted.length) res
      fillRxRing pkt_bufs_n rounds (posted ++ ids) res
    else some (posted, res)

/-- The buffers after `init`; there are as many as the ring has places. -/
def initBuffers (pkt_bufs_n rounds : ℕ) : Option (List ℕ × Resources) :=
  fillRxRing pkt_bufs_n rounds [] ((List.range pkt_bufs_n).foldl pktBufFree Resources.zero)

/-! ## The thread and the adapter -/

inductive Event where
  | rx (id : ℕ)
  /-- a frame that fails a check; it is handled all the same -/
  | rxDiscard (id : ℕ)
  | other
  deriving DecidableEq

/-- The buffer of the event. -/
def Event.id? : Event → Option ℕ
  | rx id | rxDiscard id => some id
  | other => none

/-- The buffers of events, in order. -/
def ids (evs : List Event) : List ℕ := evs.filterMap Event.id?

/-- Where the thread is. -/
inductive Control where
  | poll
  /-- with the events left -/
  | handle (evs : List Event)
  /-- an assertion has failed, or a null pointer was used -/
  | aborted
  | ended

/-- The events that were polled, and are not handled. -/
def Control.pending : Control → List Event
  | handle evs => evs
  | poll | aborted | ended => []

structure Receiver where
  control : Control
  res : Resources
  /-- the buffers the adapter will write to -/
  posted : List ℕ
  /-- the events that are not polled -/
  queue : List Event
  /-- the frames in the buffers -/
  frames : ℕ → List UInt8
  /-- all frames the adapter has written -/
  received : List (List UInt8)
  /-- all frames passed to `handle_rx` -/
  handled : List (List UInt8)

/-- `ef_vi_receive_space`: a place is free again when its event is polled. -/
def Receiver.space (pkt_bufs_n : ℕ) (w : Receiver) : ℤ :=
  pkt_bufs_n - (w.posted.length + (ids w.queue).length)

/-- What a step of the adapter may do: a frame is written to the buffer that was posted
    first, with an event for it, or there is an event of another kind. -/
inductive AdapterStep : Receiver → Receiver → Prop
  | rx {w : Receiver} {i : ℕ} {posted : List ℕ} (frame : List UInt8) : w.posted = i :: posted →
      AdapterStep w { w with
        posted := posted
        queue := w.queue ++ [.rx i]
        frames := Function.update w.frames i frame
        received := w.received ++ [frame] }
  | rxDiscard {w : Receiver} {i : ℕ} {posted : List ℕ} (frame : List UInt8) :
      w.posted = i :: posted →
      AdapterStep w { w with
        posted := posted
        queue := w.queue ++ [.rxDiscard i]
        frames := Function.update w.frames i frame
        received := w.received ++ [frame] }
  | other {w : Receiver} : AdapterStep w { w with queue := w.queue ++ [.other] }

/-- `ef_vi`: the steps that the adapter takes, and what `ef_eventq_poll` may return for an
    array of so many places, the events and those that stay in the queue. -/
structure EfVi where
  adapter : Receiver → Receiver → Prop
  eventqPoll : Receiver → ℕ → List Event → List Event → Prop

/-- What is documented of `ef_vi`. -/
structure EfVi.Documented (vi : EfVi) : Prop where
  adapter : ∀ {w v : Receiver}, vi.adapter w v → AdapterStep w v
  /-- the events are polled in order, no more than the array holds -/
  poll : ∀ {w : Receiver} {evs_len : ℕ} {evs rest : List Event},
    vi.eventqPoll w evs_len evs rest → evs ++ rest = w.queue ∧ evs.length ≤ evs_len
  /-- and some, if there are any -/
  ready : ∀ {w : Receiver} {evs_len : ℕ}, 0 < evs_len → w.queue ≠ [] →
    ∃ evs rest, vi.eventqPoll w evs_len evs rest ∧ evs ≠ []

/-- `handle_rx`. -/
def Receiver.handleRx (pkt_bufs_n : ℕ) (w : Receiver) (i : ℕ) (evs : List Event) : Receiver :=
  if i < pkt_bufs_n then
    { w with
      control := .handle evs
      res := pktBufFree w.res i
      handled := w.handled ++ [w.frames i] }
  else { w with control := .aborted }

/-- The steps of `work_thread`. -/
inductive ThreadStep (vi : EfVi) (pkt_bufs_n : ℕ) : Receiver → Receiver → Prop
  | quit {w : Receiver} : w.control = .poll →
      ThreadStep vi pkt_bufs_n w { w with control := .ended }
  | poll {w : Receiver} {evs queue : List Event} : w.control = .poll →
      vi.eventqPoll w 32 evs queue → evs ≠ [] →
      ThreadStep vi pkt_bufs_n w { w with control := .handle evs, queue := queue }
  | event {w : Receiver} {ev : Event} {i : ℕ} {evs : List Event} :
      w.control = .handle (ev :: evs) → ev.id? = some i →
      ThreadStep vi pkt_bufs_n w (w.handleRx pkt_bufs_n i evs)
  | unexpected {w : Receiver} {ev : Event} {evs : List Event} :
      w.control = .handle (ev :: evs) → ev.id? = none →
      ThreadStep vi pkt_bufs_n w { w with control := .handle evs }
  | refill {w : Receiver} {posted : List ℕ} {res : Resources} : w.control = .handle [] →
      refillRxRing (w.space pkt_bufs_n) w.res = some (posted, res) →
      ThreadStep vi pkt_bufs_n w
        { w with control := .poll, posted := w.posted ++ posted, res := res }
  | fault {w : Receiver} : w.control = .handle [] →
      refillRxRing (w.space pkt_bufs_n) w.res = none →
      ThreadStep vi pkt_bufs_n w { w with control := .aborted }

/-- The states of the receiver; no frame comes in before `init` has added the filter. -/
inductive Reachable (vi : EfVi) (pkt_bufs_n : ℕ) : Receiver → Prop
  | init {rounds : ℕ} {posted : List ℕ} {res : Resources} (frames : ℕ → List UInt8) :
      initBuffers pkt_bufs_n rounds = some (posted, res) →
      Reachable vi pkt_bufs_n ⟨.poll, res, posted, [], frames, [], []⟩
  | adapter {w v : Receiver} : Reachable vi pkt_bufs_n w → vi.adapter w v →
      Reachable vi pkt_bufs_n v
  | thread {w v : Receiver} : Reachable vi pkt_bufs_n w → ThreadStep vi pkt_bufs_n w v →
      Reachable vi pkt_bufs_n v

/-! ## Frames -/

/-- The part of `handle_rx` that finds the payload: what follows the three headers, and the
    length passed to `process_packet`. -/
def payload (frame : List UInt8) : Option (List UInt8 × UInt32) := do
  let version ← frame[14]?
  let ip_head_total_len := version.toNat % 16 * 4
  let high ← frame[14 + ip_head_total_len + 4]?
  let low ← frame[14 + ip_head_total_len + 5]?
  let udp_len : ℤ := (256 * high.toNat + low.toNat : ℕ) - 8
  some (frame.drop (14 + ip_head_total_len + 8), UInt32.ofNat (Word.toUnsigned 32 udp_len))

/-- A frame of a feed with one record type, for a number of rounds: the records handed on, with
    the bytes read of them. -/
def processFrame (q : Ostmd.Quote) (rounds : ℕ) (frame : List UInt8) :
    Option (List (ℤ × List UInt8) × Ostmd.Outcome) := do
  let (data, len) ← payload frame
  some (q.processPacket rounds data len)

end EfviReceive

end Mdd2
