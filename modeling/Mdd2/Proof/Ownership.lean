/-
  The owners of the stocks.

  * `ranges_eq`: the ranges of the channels are consecutive, from the first id to the
    last;
  * `tickRing_eq_some_iff`: a stock pushes to the ring of the channel whose range it
    is in;
  * `lookupStockId_self`: a table without wrapped entries sends a stock that it sends
    anything to its own messages;
  * `Inv`: every tick in the ring of a channel, end signs included, is looked up as a
    stock of its range (`single_owner`);
  * `not_fetchesOwn`: the table wraps positions to 16 bits, and a list of 65537 codes
    breaks it.
-/
import Mdd2.Channels
import Mdd2.Proof.Dispatch
import Mdd2.Proof.EndSign

namespace Mdd2

namespace MDD

open StockState (SixDigits)

/-! ## Ranges -/

/-- Consecutive ranges. -/
theorem flatMap_range' {f : ℕ → ℕ} (hf : Monotone f) (k : ℕ) :
    (List.range k).flatMap (fun c => List.range' (f c) (f (c + 1) - f c)) =
      List.range' (f 0) (f k - f 0) := by
  induction k with
  | zero => simp
  | succ k ih =>
    have h0 : f 0 ≤ f k := hf (Nat.zero_le k)
    have h1 : f k ≤ f (k + 1) := hf (Nat.le_succ k)
    rw [List.range_succ, List.flatMap_append, ih, List.flatMap_singleton]
    calc List.range' (f 0) (f k - f 0) ++ List.range' (f k) (f (k + 1) - f k)
        = List.range' (f 0) (f k - f 0) ++
            List.range' (f 0 + 1 * (f k - f 0)) (f (k + 1) - f k) := by congr 2; omega
      _ = List.range' (f 0) (f k - f 0 + (f (k + 1) - f k)) := List.range'_append
      _ = List.range' (f 0) (f (k + 1) - f 0) := by congr 1; omega

/-- The last of the updates of a key counts. -/
theorem foldl_update_eq_some_iff {α β : Type*} [DecidableEq α] {ps : List (α × β)}
    (hnodup : (ps.map Prod.fst).Nodup) {r : α → Option β} {a : α} {b : β} :
    ps.foldl (fun (r : α → Option β) p => Function.update r p.1 (some p.2)) r a = some b ↔
      (a, b) ∈ ps ∨ a ∉ ps.map Prod.fst ∧ r a = some b := by
  induction ps generalizing r with
  | nil => simp
  | cons p ps ih =>
    obtain ⟨hp, hnodup'⟩ := List.nodup_cons.1 hnodup
    rw [List.foldl_cons, ih hnodup', List.mem_cons, List.map_cons, List.mem_cons]
    by_cases ha : a = p.1
    · subst ha
      rw [Function.update_self]
      have hmem : (p.1, b) ∉ ps := fun h => hp (List.mem_map.2 ⟨_, h, rfl⟩)
      simp [hp, hmem, Prod.ext_iff, eq_comm]
    · rw [Function.update_of_ne ha]
      simp [ha, Prod.ext_iff]

theorem toInt_ofNat {n : ℕ} (h : n < 2 ^ 31) : (Int32.ofNat n).toInt = n :=
  Int32.toInt_ofNat_of_lt h

theorem ofNat_injOn {n m : ℕ} (hn : n < 2 ^ 31) (hm : m < 2 ^ 31)
    (h : Int32.ofNat n = Int32.ofNat m) : n = m := by
  have := congrArg Int32.toInt h
  rw [toInt_ofNat hn, toInt_ofNat hm] at this
  omega

theorem ofNat_toNat {x : Int32} (h : 0 ≤ x.toInt) : Int32.ofNat x.toInt.toNat = x := by
  apply Int32.toInt_inj.1
  have := x.toInt_lt
  rw [toInt_ofNat (by omega)]
  omega

theorem toUInt64_ofNat {n : ℕ} (h : n < 2 ^ 31) :
    (Int32.ofNat n).toInt64.toUInt64 = UInt64.ofNat n := by
  have h64 : (Int32.ofNat n).toInt64 = Int64.ofNat n := by
    apply Int64.toInt_inj.1
    rw [Int32.toInt_toInt64, toInt_ofNat h, Int64.toInt_ofNat_of_lt (by omega)]
  rw [h64, Int64.toUInt64_ofNat']

theorem idsFrom_ofNat {a b : ℕ} (hab : a ≤ b) (hb : b < 2 ^ 31) :
    idsFrom (Int32.ofNat a) (Int32.ofNat b) = (List.range' a (b - a)).map Int32.ofNat := by
  have hlt : b - a < 2 ^ 32 := by omega
  have hlen : (Int32.ofNat b - Int32.ofNat a).toUInt32.toNat = b - a := by
    rw [← Int32.ofNat_sub _ _ hab, Int32.toUInt32_ofNat', UInt32.toNat_ofNat_of_lt' hlt]
  rw [idsFrom, hlen, List.range'_eq_map_range, List.map_map]
  refine List.map_congr_left fun k _ => ?_
  rw [Function.comp_apply, Int32.ofNat_add]

section
variable {kChannelCount : Int32} {size : ℕ} (hcount : 1 ≤ kChannelCount.toInt)
  (hsize : size < 2 ^ 31)
include hcount hsize

theorem rangeBound_ofNat {c : ℕ} (hc : c ≤ kChannelCount.toInt.toNat) :
    rangeBound kChannelCount size (Int32.ofNat c) =
      Int32.ofNat (size * c / kChannelCount.toInt.toNat) := by
  have hk := kChannelCount.toInt_lt
  have hmul : size * c < 2 ^ 31 * 2 ^ 31 := by
    calc size * c ≤ size * 2 ^ 31 := Nat.mul_le_mul_left _ (by omega)
      _ < 2 ^ 31 * 2 ^ 31 := Nat.mul_lt_mul_of_pos_right hsize (by norm_num)
  have hcast : kChannelCount.toInt64.toUInt64 = UInt64.ofNat kChannelCount.toInt.toNat := by
    rw [← toUInt64_ofNat (by omega), ofNat_toNat (by omega)]
  rw [rangeBound, toUInt64_ofNat (by omega), hcast, ← UInt64.ofNat_mul,
    ← UInt64.ofNat_div (by omega) (by omega), UInt64.toUInt32_ofNat', UInt32.toInt32_ofNat']

omit hcount hsize in
theorem bound_le {c : ℕ} (hc : c ≤ kChannelCount.toInt.toNat) :
    size * c / kChannelCount.toInt.toNat ≤ size :=
  Nat.div_le_of_le_mul (by rw [Nat.mul_comm]; exact Nat.mul_le_mul_right _ hc)

theorem idsFrom_channel {c : ℕ} (hc : c < kChannelCount.toInt.toNat) :
    idsFrom (startId kChannelCount size (Int32.ofNat c))
        (stopId kChannelCount size (Int32.ofNat c)) =
      (List.range' (size * c / kChannelCount.toInt.toNat)
        (size * (c + 1) / kChannelCount.toInt.toNat - size * c / kChannelCount.toInt.toNat)).map
          Int32.ofNat := by
  have hone : Int32.ofNat c + 1 = Int32.ofNat (c + 1) := (Int32.ofNat_add c 1).symm
  rw [startId, stopId, hone, rangeBound_ofNat hcount hsize hc.le, rangeBound_ofNat hcount hsize hc]
  exact idsFrom_ofNat (Nat.div_le_div_right (Nat.mul_le_mul_left _ (Nat.le_succ c)))
    ((bound_le hc).trans_lt hsize)

theorem bounds_toInt {c : Int32} (hc : c ∈ channels kChannelCount) :
    (startId kChannelCount size c).toInt = size * c.toInt / kChannelCount.toInt ∧
      (stopId kChannelCount size c).toInt = size * (c.toInt + 1) / kChannelCount.toInt := by
  obtain ⟨n, hn, rfl⟩ := List.mem_map.1 hc
  rw [List.mem_range] at hn
  have hk := kChannelCount.toInt_lt
  have hcast : (kChannelCount.toInt.toNat : ℤ) = kChannelCount.toInt := by omega
  have hone : Int32.ofNat n + 1 = Int32.ofNat (n + 1) := (Int32.ofNat_add n 1).symm
  have hbound : ∀ m ≤ kChannelCount.toInt.toNat,
      (rangeBound kChannelCount size (Int32.ofNat m)).toInt =
        size * m / kChannelCount.toInt := fun m hm => by
    rw [rangeBound_ofNat hcount hsize hm, toInt_ofNat ((bound_le hm).trans_lt hsize), ← hcast]
    push_cast
    rfl
  rw [startId, stopId, hone, hbound n hn.le, hbound (n + 1) hn, toInt_ofNat (by omega)]
  push_cast
  exact ⟨rfl, rfl⟩

/-- **The ranges of the channels partition the ids, in order.** -/
theorem ranges_eq : (channels kChannelCount).flatMap
    (fun c => idsFrom (startId kChannelCount size c) (stopId kChannelCount size c)) =
      (List.range size).map Int32.ofNat := by
  have hmono : Monotone fun c => size * c / kChannelCount.toInt.toNat :=
    fun a b hab => Nat.div_le_div_right (Nat.mul_le_mul_left _ hab)
  have hlast : size * kChannelCount.toInt.toNat / kChannelCount.toInt.toNat = size :=
    Nat.mul_div_cancel _ (by omega)
  have hflat := flatMap_range' hmono kChannelCount.toInt.toNat
  simp only [Nat.mul_zero, Nat.zero_div, hlast, Nat.sub_zero] at hflat
  rw [List.range_eq_range', ← hflat, List.map_flatMap, channels, List.flatMap_map]
  refine List.flatMap_congr fun c hc => ?_
  exact idsFrom_channel hcount hsize (List.mem_range.1 hc)

/-- **The ring of a stock is that of the range that it is in.** -/
theorem tickRing_eq_some_iff {id c : Int32} : tickRing kChannelCount size id = some c ↔
    c ∈ channels kChannelCount ∧
      id ∈ idsFrom (startId kChannelCount size c) (stopId kChannelCount size c) := by
  obtain ⟨ps, hps⟩ : ∃ ps : List (Int32 × Int32), ps = (channels kChannelCount).flatMap fun c =>
      (idsFrom (startId kChannelCount size c) (stopId kChannelCount size c)).map (·, c) := ⟨_, rfl⟩
  have hring : tickRing kChannelCount size =
      ps.foldl (fun (r : Int32 → Option Int32) p => Function.update r p.1 (some p.2))
        fun _ => none := by
    rw [hps, List.foldl_flatMap, tickRing]
    simp only [List.foldl_map]
  have hkeys : ps.map Prod.fst = (List.range size).map Int32.ofNat := by
    rw [← ranges_eq hcount hsize, hps, List.map_flatMap]
    simp only [List.map_map, Function.comp_def, List.map_id']
  have hnodup : (ps.map Prod.fst).Nodup := by
    rw [hkeys]
    refine (List.nodup_map_iff_inj_on List.nodup_range).2 fun n hn m hm h => ?_
    rw [List.mem_range] at hn hm
    exact ofNat_injOn (by omega) (by omega) h
  rw [hring, foldl_update_eq_some_iff hnodup, hps]
  simp only [List.mem_flatMap, List.mem_map, Prod.mk.injEq]
  constructor
  · rintro (⟨c', hc', id', hid, rfl, rfl⟩ | ⟨-, h⟩)
    · exact ⟨hc', hid⟩
    · exact absurd h (by simp)
  · rintro ⟨hc, hid⟩
    exact Or.inl ⟨c, hc, id, hid, rfl, rfl⟩

end

/-! ## The table -/

variable {market : Market} {stockCodes : List Int32}

/-- **Up to 32768 codes, every index is in bounds.** -/
theorem lookupStockId_inBounds (hlen : stockCodes.length ≤ 32768) (stock : Int32) :
    lookupStockId market stockCodes stock = -1 ∨
      InBounds stockCodes (lookupStockId market stockCodes stock) := by
  rcases lookupStockId_cases market stockCodes stock with h | ⟨j, hj, -, h⟩
  · exact Or.inl h
  · refine Or.inr ?_
    rw [Int.bmod_eq_of_le (by omega) (by omega)] at h
    exact ⟨by omega, by omega⟩

/-- **A stock that is sent any message is sent its own.**  Up to 65536 codes, an entry
    that wrapped is negative. -/
theorem lookupStockId_self (hlen : stockCodes.length ≤ 65536) {stock id : Int32}
    (h : lookupStockId market stockCodes stock = id) (hid : InBounds stockCodes id) :
    lookupStockId market stockCodes (stockCodes.getD id.toInt.toNat 0) = id := by
  obtain ⟨h0, -⟩ := hid
  rcases lookupStockId_cases market stockCodes stock with hdrop | ⟨j, hj, hslot, hj'⟩
  · rw [h] at hdrop
    rw [hdrop] at h0
    exact absurd h0 (by decide)
  · rw [h, Int.bmod_def] at hj'
    have hidj : id.toInt.toNat = j := by
      split_ifs at hj' <;> omega
    rw [hidj, List.getD_eq_getElem _ _ hj, lookupStockId, hslot, ← h, lookupStockId]

/-! ## The calls of the tick thread -/

section
variable {b : Build} {alwaysBuy : Bool} {s : StockState}

theorem watch_stockCode (upperLimitPrice : ℤ) : (s.watch upperLimitPrice).stockCode =
    s.stockCode := by
  rw [StockState.watch]
  split_ifs <;> rfl

theorem onStatic_stockCode (stat : Stat) : (s.onStatic b stat).stockCode = s.stockCode := by
  rcases b with _ | ⟨_ | _⟩ | ⟨_ | _⟩ <;> simp only [StockState.onStatic]
  case ne.SH | ne.SZ =>
    split_ifs
    · rw [watch_stockCode]
    · rfl
  all_goals rw [watch_stockCode]

/-- What a call on a stock can do: it pushes the tick that it is given or an end sign,
    if the stock is alive, and brings no stock to life. -/
structure Handles (s : StockState) (tick : Option b.Tick) (r : StockState × List (Effect b)) :
    Prop where
  stockCode : r.1.stockCode = s.stockCode
  alive : r.1.alive → s.alive
  pushed : ∀ t ∈ pushed r.2, s.alive ∧
    (tick = some t ∨ ∃ timestamp, t = StockState.endSign b s.stockCode timestamp)

theorem handles_stop (timestamp : ℤ) : Handles s none (s.stop b timestamp) := by
  rw [StockState.stop]
  split_ifs with hs
  · exact ⟨rfl, fun _ => hs, fun t ht => ⟨hs, Or.inr ⟨timestamp, List.mem_singleton.1 ht⟩⟩⟩
  · exact ⟨rfl, id, fun t ht => absurd ht List.not_mem_nil⟩

theorem handles_onTick (check : ℤ → WantCache.Intent) (tick : b.Tick) :
    Handles s (some tick) (s.onTick b alwaysBuy check tick) := by
  by_cases hs : s.alive
  · have hl : (s.limitUp b tick).1.alive := by rw [StockState.limitUp_alive]; exact hs
    have hcode := s.limitUp_stockCode b tick
    cases ht : (s.limitUp b tick).2 with
    | none =>
      rw [StockState.onTick_of_none hs ht]
      exact ⟨hcode, fun _ => hs, fun t h => ⟨hs, Or.inl (by rw [List.mem_singleton.1 h])⟩⟩
    | some timestamp =>
      rw [StockState.onTick_of_some hs ht, StockState.onIntent_eq hl, hcode]
      refine ⟨rfl, fun _ => hs, fun t h => ⟨hs, Or.inr ⟨timestamp + (check timestamp).toInt, ?_⟩⟩⟩
      rw [pushed_append] at h
      rcases List.mem_append.1 h with h | h
      · split_ifs at h <;> exact absurd h List.not_mem_nil
      · exact List.mem_singleton.1 h
  · rw [StockState.onTick, if_neg hs]
    exact ⟨rfl, id, fun t ht => absurd ht List.not_mem_nil⟩

end

/-! ## Runs -/

section
variable (b : Build) (kChannelCount : Int32) (stockCodes : List Int32)

/-- A tick that is looked up as a stock of the channel. -/
def Owned (c : Int32) (tick : b.Tick) : Prop :=
  ∃ id, InBounds stockCodes id ∧ lookupStockId b.market stockCodes (tickStockCode b tick) = id ∧
    tickRing kChannelCount stockCodes.length id = some c

/-- The invariant of a run.  A stock that no message is sent to never comes to life, and
    so pushes no end sign. -/
structure Inv (w : State b) : Prop where
  stockCode : ∀ id, InBounds stockCodes id →
    (w.stockStates id).stockCode = stockCodes.getD id.toInt.toNat 0
  alive : ∀ id, InBounds stockCodes id → (w.stockStates id).alive →
    lookupStockId b.market stockCodes (stockCodes.getD id.toInt.toNat 0) = id
  rings : ∀ c, ∀ tick ∈ w.tickRings c, Owned b kChannelCount stockCodes c tick
  fetched : ∀ c, ∀ tick ∈ w.fetched c, Owned b kChannelCount stockCodes c tick

variable {b kChannelCount stockCodes} {alwaysBuy : Bool} {w v : State b}

theorem inv_init : Inv b kChannelCount stockCodes (.init b stockCodes) where
  stockCode _ _ := rfl
  alive _ _ h := absurd h (by simp [State.init, StockState.start])
  rings _ _ h := absurd h List.not_mem_nil
  fetched _ _ h := absurd h List.not_mem_nil

/-- A stock changes. -/
theorem Inv.setStock (h : Inv b kChannelCount stockCodes w) {id : Int32} {s : StockState}
    (hcode : InBounds stockCodes id → s.stockCode = stockCodes.getD id.toInt.toNat 0)
    (halive : InBounds stockCodes id → s.alive →
      lookupStockId b.market stockCodes (stockCodes.getD id.toInt.toNat 0) = id) :
    Inv b kChannelCount stockCodes
      { w with stockStates := Function.update w.stockStates id s } where
  stockCode i hi := by
    by_cases he : i = id
    · subst he
      simpa only [Function.update_self] using hcode hi
    · simpa only [Function.update_of_ne he] using h.stockCode i hi
  alive i hi ha := by
    by_cases he : i = id
    · subst he
      simp only [Function.update_self] at ha
      exact halive hi ha
    · simp only [Function.update_of_ne he] at ha
      exact h.alive i hi ha
  rings := h.rings
  fetched := h.fetched

/-- The ticks of a channel change. -/
theorem owned_update {f : Int32 → List b.Tick}
    (h : ∀ c, ∀ tick ∈ f c, Owned b kChannelCount stockCodes c tick) {c : Int32}
    {ticks : List b.Tick} (hticks : ∀ tick ∈ ticks, Owned b kChannelCount stockCodes c tick) :
    ∀ i, ∀ tick ∈ Function.update f c ticks i, Owned b kChannelCount stockCodes i tick := by
  intro i tick ht
  by_cases he : i = c
  · subst he
    rw [Function.update_self] at ht
    exact hticks tick ht
  · rw [Function.update_of_ne he] at ht
    exact h i tick ht

/-- A call of the tick thread. -/
theorem Inv.handles (h : Inv b kChannelCount stockCodes w)
    (hsix : ∀ code ∈ stockCodes, SixDigits code) {id c : Int32} {kept : List b.Tick}
    {tick : Option b.Tick} {r : StockState × List (Effect b)} (hid : InBounds stockCodes id)
    (hring : tickRing kChannelCount stockCodes.length id = some c)
    (hr : Handles (w.stockStates id) tick r) (hkept : kept.Sublist (pushed r.2))
    (htick : ∀ t, tick = some t → lookupStockId b.market stockCodes (tickStockCode b t) = id) :
    Inv b kChannelCount stockCodes
      { w with
        stockStates := Function.update w.stockStates id r.1
        tickRings := Function.update w.tickRings c (w.tickRings c ++ kept) } := by
  have hcode : r.1.stockCode = stockCodes.getD id.toInt.toNat 0 :=
    hr.stockCode.trans (h.stockCode id hid)
  have hstock := h.setStock (fun _ => hcode) fun _ ha => h.alive id hid (hr.alive ha)
  refine ⟨hstock.stockCode, hstock.alive, owned_update h.rings fun t ht => ?_, h.fetched⟩
  rcases List.mem_append.1 ht with ht | ht
  · exact h.rings c t ht
  · obtain ⟨ha, hpush⟩ := hr.pushed t (hkept.subset ht)
    refine ⟨id, hid, ?_, hring⟩
    rcases hpush with htick' | ⟨timestamp, rfl⟩
    · exact htick t htick'
    · have hmem : stockCodes.getD id.toInt.toNat 0 ∈ stockCodes := by
        obtain ⟨h0, hlt⟩ := hid
        rw [List.getD_eq_getElem _ _ (by omega)]
        exact List.getElem_mem _
      rw [h.stockCode id hid, StockState.tickStockCode_endSign (hsix _ hmem), h.alive id hid ha]

theorem Inv.step (h : Inv b kChannelCount stockCodes w)
    (hsix : ∀ code ∈ stockCodes, SixDigits code) (hlen : stockCodes.length ≤ 65536)
    (hstep : Step b alwaysBuy kChannelCount stockCodes w v) :
    Inv b kChannelCount stockCodes v := by
  cases hstep with
  | handleStatic stat hlookup hne hid =>
    refine h.setStock (fun _ => ?_) fun _ _ => lookupStockId_self hlen hlookup hid
    rw [onStatic_stockCode, h.stockCode _ hid]
  | handleTick tick check hlookup hne hid hring hkept =>
    refine h.handles hsix hid hring (handles_onTick check tick) hkept fun t ht => ?_
    rw [← Option.some.inj ht, hlookup]
  | stop hid hring hkept =>
    refine h.handles hsix hid hring (handles_stop 0) hkept fun t ht => ?_
    exact absurd ht (by simp)
  | fetch t ht hn =>
    refine ⟨h.stockCode, h.alive, owned_update h.rings fun tick hc => ?_,
      owned_update h.fetched fun tick hc => ?_⟩
    · exact h.rings _ tick (List.mem_of_mem_drop hc)
    · rcases List.mem_append.1 hc with hc | hc
      · exact h.fetched _ tick hc
      · exact h.rings _ tick (List.mem_of_mem_take hc)

theorem inv_of_reachable (hsix : ∀ code ∈ stockCodes, SixDigits code)
    (hlen : stockCodes.length ≤ 65536) (hw : Reachable b alwaysBuy kChannelCount stockCodes w) :
    Inv b kChannelCount stockCodes w := by
  induction hw with
  | init => exact inv_init
  | step _ hstep ih => exact ih.step hsix hlen hstep

variable (b kChannelCount stockCodes) (alwaysBuy)

/-- Every tick that a compute thread fetches is dropped, or is for a stock of the range
    of the thread. -/
def FetchesOwn : Prop :=
  ∀ w, Reachable b alwaysBuy kChannelCount stockCodes w →
    ∀ t ∈ computeThreads kChannelCount stockCodes.length, ∀ tick ∈ w.fetched t.channel,
      lookupStockId b.market stockCodes (tickStockCode b tick) = -1 ∨
        lookupStockId b.market stockCodes (tickStockCode b tick) ∈ idsFrom t.startId t.stopId

/-- No compute is accessed by two threads. -/
def SingleOwner : Prop :=
  ∀ w, Reachable b alwaysBuy kChannelCount stockCodes w →
    ∀ t ∈ computeThreads kChannelCount stockCodes.length,
    ∀ t' ∈ computeThreads kChannelCount stockCodes.length, ∀ id,
      Touches stockCodes w t id → Touches stockCodes w t' id → t = t'

variable {b kChannelCount stockCodes alwaysBuy}

/-- The range of a thread is that of the stocks of its ring. -/
theorem mem_range_iff (hcount : 1 ≤ kChannelCount.toInt) {size : ℕ} (hsize : size < 2 ^ 31)
    {t : ComputeThreadArgs} (ht : t ∈ computeThreads kChannelCount size) {id : Int32} :
    id ∈ idsFrom t.startId t.stopId ↔ tickRing kChannelCount size id = some t.channel := by
  obtain ⟨c, hc, rfl⟩ := List.mem_map.1 ht
  rw [tickRing_eq_some_iff hcount hsize]
  exact ⟨fun h => ⟨hc, h⟩, And.right⟩

theorem fetchesOwn (hcount : 1 ≤ kChannelCount.toInt)
    (hsix : ∀ code ∈ stockCodes, SixDigits code) (hlen : stockCodes.length ≤ 65536) :
    FetchesOwn b kChannelCount stockCodes alwaysBuy := by
  intro w hw t ht tick htick
  obtain ⟨id, -, hlookup, hring⟩ := (inv_of_reachable hsix hlen hw).fetched _ tick htick
  rw [hlookup]
  exact Or.inr ((mem_range_iff hcount (by omega) ht).2 hring)

theorem FetchesOwn.singleOwner (h : FetchesOwn b kChannelCount stockCodes alwaysBuy)
    (hcount : 1 ≤ kChannelCount.toInt) (hsize : stockCodes.length < 2 ^ 31) :
    SingleOwner b kChannelCount stockCodes alwaysBuy := by
  intro w hw t ht t' ht' id hid hid'
  have hring : ∀ u ∈ computeThreads kChannelCount stockCodes.length,
      Touches stockCodes w u id →
        tickRing kChannelCount stockCodes.length id = some u.channel := by
    rintro u hu (hu' | ⟨tick, htick, rfl, hne⟩)
    · exact (mem_range_iff hcount hsize hu).1 hu'
    · exact (mem_range_iff hcount hsize hu).1 ((h w hw u hu tick htick).resolve_left hne)
  have hchannel : t.channel = t'.channel :=
    Option.some.inj ((hring t ht hid).symm.trans (hring t' ht' hid'))
  obtain ⟨c, -, rfl⟩ := List.mem_map.1 ht
  obtain ⟨c', -, rfl⟩ := List.mem_map.1 ht'
  obtain rfl : c = c' := hchannel
  rfl

/-- **Each stock has one owner.**  The ranges of the channels partition the ids, and are
    those of the rings; with at most 65536 codes every tick fetched is dropped or is
    for a stock of the thread's range, and with at most 32768 no message is dispatched
    outside of the arrays. -/
theorem single_owner (b : Build) (alwaysBuy : Bool) {kChannelCount : Int32}
    {stockCodes : List Int32} (hcount : 1 ≤ kChannelCount.toInt)
    (hsix : ∀ code ∈ stockCodes, SixDigits code) (hsize : stockCodes.length < 2 ^ 31) :
    (∀ c ∈ channels kChannelCount,
      (startId kChannelCount stockCodes.length c).toInt =
          stockCodes.length * c.toInt / kChannelCount.toInt ∧
        (stopId kChannelCount stockCodes.length c).toInt =
          stockCodes.length * (c.toInt + 1) / kChannelCount.toInt) ∧
    (channels kChannelCount).flatMap (fun c =>
      idsFrom (startId kChannelCount stockCodes.length c)
        (stopId kChannelCount stockCodes.length c)) =
      (List.range stockCodes.length).map Int32.ofNat ∧
    (∀ t ∈ computeThreads kChannelCount stockCodes.length, ∀ id,
      id ∈ idsFrom t.startId t.stopId ↔
        tickRing kChannelCount stockCodes.length id = some t.channel) ∧
    (stockCodes.length ≤ 65536 → FetchesOwn b kChannelCount stockCodes alwaysBuy ∧
      SingleOwner b kChannelCount stockCodes alwaysBuy) ∧
    (stockCodes.length ≤ 32768 → ∀ stock, lookupStockId b.market stockCodes stock = -1 ∨
      InBounds stockCodes (lookupStockId b.market stockCodes stock)) := by
  refine ⟨fun c hc => ?_, ranges_eq hcount hsize, fun t ht id => mem_range_iff hcount hsize ht,
    fun hlen => ?_, lookupStockId_inBounds⟩
  · exact bounds_toInt hcount hsize hc
  · have h : FetchesOwn b kChannelCount stockCodes alwaysBuy := fetchesOwn hcount hsix hlen
    exact ⟨h, h.singleOwner hcount hsize⟩

theorem single_owner_three :
    FetchesOwn (.ne .SH) 12 [600000, 601318, 605499] false ∧
      SingleOwner (.ne .SH) 12 [600000, 601318, 605499] false :=
  have hsix : ∀ code ∈ [600000, 601318, 605499], SixDigits code :=
    List.forall_mem_cons.2 ⟨by decide, List.forall_mem_cons.2 ⟨by decide,
      List.forall_mem_singleton.2 (by decide)⟩⟩
  (single_owner (.ne .SH) false (by decide) hsix (by decide)).2.2.2.1 (by decide)

/-! ## A table with wrapped entries -/

/-- Codes out of the range of the table, but for the first, which is the one at 20000
    again, and the last, whose position is wrapped to that of the first. -/
def wrappedCode (i : ℕ) : Int32 :=
  if i = 0 ∨ i = 20000 then 2 else if i = 65536 then 1 else Int32.ofNat (100000 + i)

def wrappedCodes : List Int32 := (List.range 65537).map wrappedCode

theorem length_wrappedCodes : wrappedCodes.length = 65537 := by
  rw [wrappedCodes, List.length_map, List.length_range]

theorem getElem_wrappedCodes {i : ℕ} (hi : i < wrappedCodes.length) :
    wrappedCodes[i] = wrappedCode i := by
  simp only [wrappedCodes, List.getElem_map, List.getElem_range]

theorem sixDigits_wrappedCodes : ∀ code ∈ wrappedCodes, SixDigits code := by
  intro code hcode
  obtain ⟨i, hi, rfl⟩ := List.mem_map.1 hcode
  rw [List.mem_range] at hi
  rw [wrappedCode]
  split_ifs
  · exact ⟨by decide, by decide⟩
  · exact ⟨by decide, by decide⟩
  · have h := toInt_ofNat (n := 100000 + i) (by omega)
    exact ⟨by omega, by omega⟩

/-- The entry of a code of the range is its last position, wrapped. -/
theorem lookup_wrappedCodes {stock : Int32} (hstock : Served .SZ stock) {j : ℕ} (hj : j < 65537)
    (hcode : wrappedCode j = stock) (hlast : ∀ k < 65537, j < k → wrappedCode k ≠ stock) :
    lookupStockId .SZ wrappedCodes stock = (Int16.ofNat j).toInt32 := by
  have hi : j < wrappedCodes.length := by rwa [length_wrappedCodes]
  rw [lookupStockId, initStockIdLut, fillStockIdLut_of_unique _ _ 0 j hi, Nat.zero_add]
  · rw [getElem_wrappedCodes, hcode]
  · intro k hk hlt he
    rw [getElem_wrappedCodes] at he
    rw [length_wrappedCodes] at hk
    exact hlast k hk hlt (linearizeStockId_inj hstock he)

theorem lookup_wrappedCodes_one : lookupStockId .SZ wrappedCodes 1 = 0 :=
  lookup_wrappedCodes (by decide) (by norm_num) (j := 65536) rfl fun k hk hlt => by omega

theorem lookup_wrappedCodes_two : lookupStockId .SZ wrappedCodes 2 = 20000 := by
  refine lookup_wrappedCodes (by decide) (by norm_num) (j := 20000) rfl fun k hk hlt => ?_
  rw [wrappedCode, if_neg (by omega)]
  split_ifs
  · decide
  · intro he
    have := ofNat_injOn (m := 2) (by omega) (by norm_num) he
    omega

theorem idsFrom_wrappedCodes {c : ℕ} (hc : c < 12) :
    idsFrom (startId 12 wrappedCodes.length (Int32.ofNat c))
        (stopId 12 wrappedCodes.length (Int32.ofNat c)) =
      (List.range' (65537 * c / 12) (65537 * (c + 1) / 12 - 65537 * c / 12)).map Int32.ofNat := by
  rw [length_wrappedCodes]
  exact idsFrom_channel (by decide) (by norm_num) hc

/-- The first stock comes to life with a message for the last code, and ends with a tick
    for it; the end sign has the code of the first stock. -/
theorem reachable_wrappedCodes : ∃ w, Reachable (.replay .SZ) false 12 wrappedCodes w ∧
    StockState.endSign (.replay .SZ) 2 93000001 ∈ w.fetched 0 := by
  have hid : InBounds wrappedCodes 0 := ⟨le_refl 0, by rw [length_wrappedCodes]; decide⟩
  have hring : tickRing 12 wrappedCodes.length 0 = some 0 := by
    refine (tickRing_eq_some_iff (by decide) (by rw [length_wrappedCodes]; norm_num)).2
      ⟨by decide, ?_⟩
    exact (idsFrom_wrappedCodes (c := 0) (by norm_num)).symm ▸
      List.mem_map.2 ⟨0, List.mem_range'_1.2 ⟨by norm_num, by norm_num⟩, rfl⟩
  have hthread : (⟨0, startId 12 wrappedCodes.length 0, stopId 12 wrappedCodes.length 0⟩ :
      ComputeThreadArgs) ∈ computeThreads 12 wrappedCodes.length :=
    List.mem_map.2 ⟨0, by decide, rfl⟩
  have hcode : wrappedCodes.getD 0 0 = 2 := by
    rw [List.getD_eq_getElem _ _ (by rw [length_wrappedCodes]; norm_num), getElem_wrappedCodes]
    rfl
  have hstart : (State.init (.replay .SZ) wrappedCodes).stockStates 0 = .start 2 :=
    congrArg StockState.start hcode
  have hne : (0 : Int32) ≠ -1 := by decide
  have htick : lookupStockId (Build.replay .SZ).market wrappedCodes
      (tickStockCode (.replay .SZ) ⟨1, 93000000, 10, 1, 1, 0⟩) = 0 := lookup_wrappedCodes_one
  have hstatic := Reachable.init.step (@Step.handleStatic (.replay .SZ) false 12 wrappedCodes _ 0
    ⟨1, .SZ, 1, 10, 0⟩ lookup_wrappedCodes_one hne hid)
  have hpush := hstatic.step (@Step.handleTick (.replay .SZ) false 12 wrappedCodes _ 0 0 _
    ⟨1, 93000000, 10, 1, 1, 0⟩ (fun _ => .DontBuy) htick hne hid hring (List.Sublist.refl _))
  refine ⟨_, hpush.step (.fetch (n := 1) _ hthread (by norm_num)), ?_⟩
  simp only [Function.update_self, hstart]
  decide

/-- **The first thread fetches the end sign of a stock of the fourth.** -/
theorem not_fetchesOwn : (∀ code ∈ wrappedCodes, SixDigits code) ∧
    ¬ FetchesOwn (.replay .SZ) 12 wrappedCodes false ∧
    ¬ SingleOwner (.replay .SZ) 12 wrappedCodes false := by
  obtain ⟨w, hw, hmem⟩ := reachable_wrappedCodes
  have hthread : ∀ c ∈ channels 12, (⟨c, startId 12 wrappedCodes.length c,
      stopId 12 wrappedCodes.length c⟩ : ComputeThreadArgs) ∈
        computeThreads 12 wrappedCodes.length := fun c hc => List.mem_map.2 ⟨c, hc, rfl⟩
  refine ⟨sixDigits_wrappedCodes, fun h => ?_, fun h => ?_⟩
  · have hown := h w hw _ (hthread 0 (by decide)) _ hmem
    rw [show lookupStockId (Build.replay .SZ).market wrappedCodes (tickStockCode (.replay .SZ)
      (StockState.endSign (.replay .SZ) 2 93000001)) = 20000 from
        lookup_wrappedCodes_two] at hown
    rcases hown with hdrop | hrange
    · exact absurd hdrop (by decide)
    · rw [show idsFrom (startId 12 wrappedCodes.length 0) (stopId 12 wrappedCodes.length 0) = _ from
        idsFrom_wrappedCodes (c := 0) (by norm_num)] at hrange
      obtain ⟨n, hn, he⟩ := List.mem_map.1 hrange
      rw [List.mem_range'_1] at hn
      have := ofNat_injOn (m := 20000) (by omega) (by norm_num) he
      omega
  · have heq := h w hw _ (hthread 0 (by decide)) _ (hthread 3 (by decide)) 20000
      (Or.inr ⟨_, hmem, lookup_wrappedCodes_two, by decide⟩) (Or.inl ?_)
    · exact absurd (congrArg ComputeThreadArgs.channel heq) (by decide)
    · rw [show idsFrom (startId 12 wrappedCodes.length 3) (stopId 12 wrappedCodes.length 3) = _ from
        idsFrom_wrappedCodes (c := 3) (by norm_num)]
      exact List.mem_map.2 ⟨20000, List.mem_range'_1.2 ⟨by norm_num, by norm_num⟩, rfl⟩

end

end MDD

end Mdd2
