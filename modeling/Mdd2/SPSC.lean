/-
  The ring between two threads (`SPSC.h`), with `AtomicWait` off.

  `N` slots, a write position and a read position; the ring is full when one slot
  is unused.  Each side works on a local position and on a cached copy of the
  other's position, and publishes its own with a release store.  An acquire load
  yields some published position, not older than the one loaded before, and makes
  the slot accesses before that store known to the side that loads it.

  A step is one access to memory, with the local computation around it.
-/
import Mdd2.Lib.Published

namespace Mdd2

namespace SpscRing

/-- The operations of the producer. -/
inductive WriteOp where
  | writeOne
  | writeSome
  | write
  deriving DecidableEq

/-- The operations of the consumer. -/
inductive ReadOp where
  | readSome
  | read
  deriving DecidableEq

/-- Where the producer is, with the locals of the call. -/
inductive Writer (T : Type) where
  | idle
  /-- at the head of the loop, with the items that are left -/
  | loop (op : WriteOp) (write_pos_local read_pos_cached : ℕ) (input : List T)
  /-- the position loaded leaves no slot -/
  | full (op : WriteOp) (write_pos_local read_pos_cached : ℕ) (input : List T)

/-- Where the consumer is, with the locals of the call. -/
inductive Reader (T : Type) where
  | idle
  /-- at the head of the loop, with the room that is left, and the items copied -/
  | loop (op : ReadOp) (read_pos_local write_pos_cached : ℕ) (room : ℕ) (output : List T)
  /-- the position loaded leaves no item -/
  | empty (op : ReadOp) (read_pos_local write_pos_cached : ℕ) (room : ℕ) (output : List T)

end SpscRing

open SpscRing

structure SpscRing (T : Type) where
  /-- the stores into slots, in order: the slot and the item -/
  stores : List (ℕ × T)
  /-- the copies out of slots, in order -/
  copies : List (ℕ × T)
  /-- the positions published -/
  m_write_pos : List Publication
  m_read_pos : List Publication
  m_write_pos_local : ℕ
  m_read_pos_cached : ℕ
  /-- the place in `m_read_pos` of the last load -/
  readSeen : ℕ
  writer : Writer T
  m_read_pos_local : ℕ
  m_write_pos_cached : ℕ
  /-- the place in `m_write_pos` of the last load -/
  writeSeen : ℕ
  reader : Reader T
  /-- the items that calls of the consumer returned -/
  returned : List T

namespace SpscRing
variable {T : Type}

def init : SpscRing T where
  stores := []
  copies := []
  m_write_pos := [⟨0, 0⟩]
  m_read_pos := [⟨0, 0⟩]
  m_write_pos_local := 0
  m_read_pos_cached := 0
  readSeen := 0
  writer := .idle
  m_read_pos_local := 0
  m_write_pos_cached := 0
  writeSeen := 0
  reader := .idle
  returned := []

/-- The position after a position. -/
def nextPos (N pos : ℕ) : ℕ := if pos + 1 = N then 0 else pos + 1

/-- The number of copies that the producer knows of. -/
def knownCopies (g : SpscRing T) : ℕ := (Published.load g.m_read_pos g.readSeen).done

/-- The number of stores that the consumer knows of. -/
def knownStores (g : SpscRing T) : ℕ := (Published.load g.m_write_pos g.writeSeen).done

/-- The last item stored into a slot. -/
def lastStore (stores : List (ℕ × T)) (pos : ℕ) : Option T :=
  (stores.reverse.find? fun s => s.1 = pos).map Prod.snd

/-- What a copy out of a slot must yield: the last item stored, unless there is none,
    or the consumer does not know of a store into the slot, which may then be
    half done. -/
def settled (g : SpscRing T) (pos : ℕ) : Option T :=
  if ∀ s ∈ g.stores.drop g.knownStores, s.1 ≠ pos then
    lastStore (g.stores.take g.knownStores) pos
  else none

/-- `m_write_pos.store(pos, release)`. -/
def publishWrite (g : SpscRing T) (pos : ℕ) : SpscRing T :=
  { g with m_write_pos := g.m_write_pos ++ [⟨pos, g.stores.length⟩] }

/-- `m_read_pos.store(pos, release)`. -/
def publishRead (g : SpscRing T) (pos : ℕ) : SpscRing T :=
  { g with m_read_pos := g.m_read_pos ++ [⟨pos, g.copies.length⟩] }

/-- What is seen of a step. -/
inductive Event (T : Type) where
  | silent
  /-- an item is stored into a slot -/
  | store (pos : ℕ) (item : T)
  /-- an item is copied out of a slot -/
  | copy (pos : ℕ) (item : T)
  /-- `write_one` returns false -/
  | reject

inductive Step (N : ℕ) : SpscRing T → Event T → SpscRing T → Prop
  /-- the producer calls; `write_one` has one item -/
  | callWrite {g : SpscRing T} {op : WriteOp} {input : List T} : g.writer = .idle →
      (op = .writeOne → input.length = 1) →
      Step N g .silent
        { g with writer := .loop op g.m_write_pos_local g.m_read_pos_cached input }
  /-- there is a slot -/
  | store {g : SpscRing T} {op : WriteOp} {w rc : ℕ} {item : T} {input : List T} :
      g.writer = .loop op w rc (item :: input) → nextPos N w ≠ rc →
      Step N g (.store w item)
        { g with stores := g.stores ++ [(w, item)], writer := .loop op (nextPos N w) rc input }
  /-- the cached position leaves no slot, and is loaded again -/
  | loadRead {g : SpscRing T} {op : WriteOp} {w rc : ℕ} {item : T} {input : List T} (k : ℕ) :
      g.writer = .loop op w rc (item :: input) → nextPos N w = rc →
      g.readSeen ≤ k → k < g.m_read_pos.length →
      Step N g .silent
        { g with
          readSeen := k
          writer :=
            if nextPos N w = (Published.load g.m_read_pos k).pos then
              .full op w (Published.load g.m_read_pos k).pos (item :: input)
            else .loop op w (Published.load g.m_read_pos k).pos (item :: input) }
  /-- all items are stored -/
  | returnWrite {g : SpscRing T} {op : WriteOp} {w rc : ℕ} : g.writer = .loop op w rc [] →
      Step N g .silent
        { g.publishWrite w with m_write_pos_local := w, m_read_pos_cached := rc, writer := .idle }
  | rejectOne {g : SpscRing T} {w rc : ℕ} {input : List T} :
      g.writer = .full .writeOne w rc input →
      Step N g .reject { g.publishWrite w with m_read_pos_cached := rc, writer := .idle }
  | breakWrite {g : SpscRing T} {w rc : ℕ} {input : List T} :
      g.writer = .full .writeSome w rc input →
      Step N g .silent
        { g.publishWrite w with m_write_pos_local := w, m_read_pos_cached := rc, writer := .idle }
  | spinWrite {g : SpscRing T} {w rc : ℕ} {input : List T} :
      g.writer = .full .write w rc input →
      Step N g .silent { g.publishWrite w with writer := .loop .write w rc input }
  /-- the consumer calls -/
  | callRead {g : SpscRing T} {op : ReadOp} {room : ℕ} : g.reader = .idle →
      Step N g .silent
        { g with reader := .loop op g.m_read_pos_local g.m_write_pos_cached room [] }
  /-- there is an item -/
  | copy {g : SpscRing T} {op : ReadOp} {r wc room : ℕ} {output : List T} {item : T} :
      g.reader = .loop op r wc (room + 1) output → r ≠ wc →
      (∀ item', g.settled r = some item' → item = item') →
      Step N g (.copy r item)
        { g with
          copies := g.copies ++ [(r, item)]
          reader := .loop op (nextPos N r) wc room (output ++ [item]) }
  /-- the cached position leaves no item, and is loaded again -/
  | loadWrite {g : SpscRing T} {op : ReadOp} {r wc room : ℕ} {output : List T} (k : ℕ) :
      g.reader = .loop op r wc (room + 1) output → r = wc →
      g.writeSeen ≤ k → k < g.m_write_pos.length →
      Step N g .silent
        { g with
          writeSeen := k
          reader :=
            if r = (Published.load g.m_write_pos k).pos then
              .empty op r (Published.load g.m_write_pos k).pos (room + 1) output
            else .loop op r (Published.load g.m_write_pos k).pos (room + 1) output }
  /-- the output is full -/
  | returnRead {g : SpscRing T} {op : ReadOp} {r wc : ℕ} {output : List T} :
      g.reader = .loop op r wc 0 output →
      Step N g .silent
        { g.publishRead r with
          m_read_pos_local := r
          m_write_pos_cached := wc
          reader := .idle
          returned := g.returned ++ output }
  | breakRead {g : SpscRing T} {r wc room : ℕ} {output : List T} :
      g.reader = .empty .readSome r wc room output →
      Step N g .silent
        { g.publishRead r with
          m_read_pos_local := r
          m_write_pos_cached := wc
          reader := .idle
          returned := g.returned ++ output }
  | spinRead {g : SpscRing T} {r wc room : ℕ} {output : List T} :
      g.reader = .empty .read r wc room output →
      Step N g .silent { g.publishRead r with reader := .loop .read r wc room output }

/-- The states of any number of calls, in any order of their steps. -/
inductive Reachable (N : ℕ) : SpscRing T → Prop
  | init : Reachable N init
  | step {g g' : SpscRing T} {e : Event T} : Reachable N g → Step N g e g' → Reachable N g'

/-- The items that the calls of the producer accepted. -/
def accepted (g : SpscRing T) : List T := g.stores.map Prod.snd

/-- The items that are published, and not released. -/
def content (g : SpscRing T) : List T :=
  (g.accepted.take (Published.latest g.m_write_pos).done).drop
    (Published.latest g.m_read_pos).done

end SpscRing

end Mdd2
