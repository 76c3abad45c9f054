/-
  Builds and market data messages (`config.h.in`, `MDS.h`).

  The target security and market are compile-time choices; a `Build` is one of
  them, and `Build.Tick` the message type it compiles in.  The replay builds
  read `L2.Tick`s.  The live builds read 64-byte packed records: a union of
  them is one memory image, and each record below reads its fields from the
  image at its own offsets.
-/
import Mdd2.Tick
import Mdd2.Lib.Packed

namespace Mdd2

inductive Market where
  | SH
  | SZ
  deriving DecidableEq

/-- `TARGET_SECURITY` and `TARGET_MARKET`. -/
inductive Build where
  | replay (market : Market)
  | ne (market : Market)
  | ost (market : Market)
  deriving DecidableEq

/-- The memory of a live tick. -/
abbrev Image := BitVec 512

/-- `MDS::Tick`. -/
abbrev Build.Tick : Build → Type
  | replay _ => L2.Tick
  | ne _ | ost _ => Image

/-- An unsigned field of a record. -/
def Image.unsigned (m : Image) (off len : ℕ) : ℕ := (Packed.field m off len).toNat

/-- `MDS::Stat`, as far as it is read: prices in cents, after the rounding of
    the source, and the trading day (of the system clock, for NE). -/
structure Stat where
  stock : Int32
  marketType : Market
  preClosePrice : ℤ
  upperLimitPrice : ℤ
  tradingDay : ℤ

/-! ## NE records -/

def msgTypeTradeSz : ℕ := 0x04
def msgTypeOrderSz : ℕ := 0x05

namespace TickMergeSse
variable (m : Image)

def tickType : ℕ := m.unsigned 15 1
def tickBSFlag : ℕ := m.unsigned 16 1
def tickTime : ℕ := m.unsigned 29 4
def buyOrderNo : ℕ := m.unsigned 33 8
def sellOrderNo : ℕ := m.unsigned 41 8
def price : ℕ := m.unsigned 49 4
def qty : ℕ := m.unsigned 53 8

end TickMergeSse

/-- The header the two Shenzhen records share. -/
def neMessageType (m : Image) : ℕ := m.unsigned 0 1

namespace TradeSz
variable (m : Image)

def execType : ℕ := m.unsigned 15 1
def applSeqNum : ℕ := m.unsigned 16 8
def transactTime : ℕ := m.unsigned 24 8
def tradePrice : ℕ := m.unsigned 32 8
def tradeQty : ℕ := m.unsigned 40 8
def bidapplSeqnum : ℕ := m.unsigned 48 8
def offerapplSeqnum : ℕ := m.unsigned 56 8

end TradeSz

namespace OrderSz
variable (m : Image)

def side : ℕ := m.unsigned 16 1
def orderType : ℕ := m.unsigned 17 1
def applSeqNum : ℕ := m.unsigned 18 8
def transactTime : ℕ := m.unsigned 26 8
def price : ℕ := m.unsigned 34 8
def qty : ℕ := m.unsigned 42 8

end OrderSz

/-! ## OST records -/

def szeMsgTypeOrder : ℕ := 23
def szeMsgTypeTrade : ℕ := 24

namespace SseHpfTick64
variable (m : Image)

def tickTime : ℕ := m.unsigned 19 4
def tickType : ℕ := m.unsigned 23 1
def orderPrice : ℕ := m.unsigned 40 4
def sideFlag : ℕ := m.unsigned 60 1

end SseHpfTick64

namespace SzeHpfPktHead64
variable (m : Image)

def messageType : ℕ := m.unsigned 0 1
def quoteUpdateTime : ℕ := m.unsigned 13 8

end SzeHpfPktHead64

namespace SzeHpfOrderPkt64
variable (m : Image)

def px : ℕ := m.unsigned 35 4
def qty : ℕ := m.unsigned 39 8
def side : ℕ := m.unsigned 47 1
def orderType : ℕ := m.unsigned 48 1

end SzeHpfOrderPkt64

namespace SzeHpfExePkt64
variable (m : Image)

def exePx : ℕ := m.unsigned 51 4
def exeQty : ℕ := m.unsigned 55 8
def exeType : ℕ := m.unsigned 63 1

end SzeHpfExePkt64

end Mdd2
