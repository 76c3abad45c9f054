/-
  The snapshot series.

  * `nextSlot` is one slot passed; `stepSnapshotUntil` passes as many slots as
    the given time needs (`stepSnapshotUntil_of_slot`), and it does not return
    for a time after the last slot of a day (`stepSnapshotUntil_of_late`);
  * `FState.OnGrid` is what holds of the series of a started stock at any time;
  * `addRealTrades_buckets`: after any trades of a day, the series is the
    bucketing of the trades by the grid (`bucket`), as the counters hold it, and
    exactly so in every slot whose sums fit them.
-/
import Mdd2.Proof.Clock
import Mdd2.StockCompute

namespace Mdd2

variable {R : Type} [FactorScalar R]

namespace FState

/-! ## Passing slots -/

/-- One slot passed: the current snapshot is recorded, and the clock advances. -/
def nextSlot (f : FState R) : FState R where
  nextTickTimestamp := timestampAdvance100ms f.nextTickTimestamp
  currSnapshot := { f.currSnapshot with numTrades := 0, volume := 0, amount := 0 }
  snapshots := f.snapshots ++ [f.currSnapshot]
  iirState := f.iirState.map (·.addVolumeTick (f.currSnapshot.volume : R))

/-- The current snapshot is recorded, and the clock is not yet advanced. -/
def recorded (f : FState R) : FState R :=
  { f.nextSlot with nextTickTimestamp := f.nextTickTimestamp }

theorem stepSnapshot_eq {f : FState R} (h : f.iirState.isSome) :
    f.stepSnapshot = some f.recorded := by
  obtain ⟨iirState, hi⟩ := Option.isSome_iff_exists.1 h
  simp only [stepSnapshot, hi, recorded, nextSlot, Option.map_some]

theorem isSome_nextSlot {f : FState R} (h : f.iirState.isSome) : f.nextSlot.iirState.isSome := by
  simpa [nextSlot] using h

theorem isSome_nextSlot_iterate {f : FState R} (h : f.iirState.isSome) (n : ℕ) :
    (nextSlot^[n] f).iirState.isSome := by
  induction n with
  | zero => exact h
  | succ n ih => rw [Function.iterate_succ_apply']; exact isSome_nextSlot ih

/-- A round of the loop. -/
theorem stepSnapshotLoop_succ {f : FState R} (h : f.iirState.isSome) (fuel : ℕ) (timestamp : ℤ) :
    stepSnapshotLoop (fuel + 1) timestamp f.recorded =
      if timestamp > f.nextSlot.nextTickTimestamp then
        stepSnapshotLoop fuel timestamp f.nextSlot.recorded
      else some f.nextSlot := by
  have hadvance : { f.recorded with
      nextTickTimestamp := timestampAdvance100ms f.recorded.nextTickTimestamp } = f.nextSlot := rfl
  rw [stepSnapshotLoop, hadvance, stepSnapshot_eq (isSome_nextSlot h)]
  rfl

theorem stepSnapshotUntil_eq {f : FState R} (h : f.iirState.isSome) (timestamp : ℤ) :
    f.stepSnapshotUntil timestamp =
      if timestamp > f.nextTickTimestamp then stepSnapshotLoop slotsPerDay timestamp f.recorded
      else some f := by
  rw [stepSnapshotUntil, stepSnapshot_eq h]; rfl

/-- A trade counted in the current slot. -/
def countTrade (f : FState R) (price quantity : ℤ) : FState R :=
  { f with currSnapshot := { f.currSnapshot.count price quantity with lastPrice := price } }

theorem addRealTrade_eq {f g : FState R} {timestamp : ℤ}
    (h : f.stepSnapshotUntil timestamp = some g) (price quantity : ℤ) :
    f.addRealTrade timestamp price quantity = some (g.countTrade price quantity) := by
  rw [addRealTrade, h]; rfl

theorem stepSnapshotLoop_of_slot : ∀ (n fuel : ℕ) {timestamp : ℤ} {f : FState R},
    f.iirState.isSome → n < fuel →
    (∀ m ≤ n, (nextSlot^[m] f).nextTickTimestamp < timestamp) →
    timestamp ≤ (nextSlot^[n + 1] f).nextTickTimestamp →
      stepSnapshotLoop fuel timestamp f.recorded = some (nextSlot^[n + 1] f)
  | _, 0, _, _, _, hn, _, _ => absurd hn (by omega)
  | 0, fuel + 1, timestamp, f, hf, _, _, hge => by
    have hge' : ¬ timestamp > f.nextSlot.nextTickTimestamp := not_lt.2 hge
    rw [stepSnapshotLoop_succ hf, if_neg hge']; rfl
  | n + 1, fuel + 1, timestamp, f, hf, hn, hlt, hge => by
    have hlt' : timestamp > f.nextSlot.nextTickTimestamp := hlt 1 (by omega)
    rw [stepSnapshotLoop_succ hf, if_pos hlt']
    exact stepSnapshotLoop_of_slot n fuel (isSome_nextSlot hf) (by omega)
      (fun m hm => hlt (m + 1) (by omega)) hge

theorem nextTickTimestamp_iterate {f : FState R} {k n : ℕ} (hf : f.nextTickTimestamp = gridTime k)
    (hn : k + n ≤ lastSlot) : (nextSlot^[n] f).nextTickTimestamp = gridTime (k + n) := by
  induction n with
  | zero => exact hf
  | succ n ih =>
    rw [Function.iterate_succ_apply', nextSlot, ih (by omega), gridTime_succ (by omega)]
    rfl

/-- **On the grid, `stepSnapshotUntil` passes to the slot of the given time.** -/
theorem stepSnapshotUntil_of_slot {f : FState R} {timestamp : ℤ} {k m : ℕ}
    (hf : f.iirState.isSome) (hk : f.nextTickTimestamp = gridTime k) (hkm : k ≤ m)
    (hm : m ≤ lastSlot) (hlt : ∀ j < m, gridTime j < timestamp) (hge : timestamp ≤ gridTime m) :
    f.stepSnapshotUntil timestamp = some (nextSlot^[m - k] f) := by
  rw [stepSnapshotUntil_eq hf]
  rcases Nat.lt_or_eq_of_le hkm with hkm | rfl
  · have hn : m - k = m - k - 1 + 1 := by omega
    rw [if_pos (hk ▸ hlt k hkm), hn]
    refine stepSnapshotLoop_of_slot _ _ hf (by unfold slotsPerDay; unfold lastSlot at hm; omega)
      (fun j hj => ?_) ?_
    · rw [nextTickTimestamp_iterate hk (by omega)]; exact hlt _ (by omega)
    · rw [nextTickTimestamp_iterate hk (by omega)]
      rw [show k + (m - k - 1 + 1) = m by omega]; exact hge
  · rw [if_neg (by omega), Nat.sub_self]; rfl

/-- No slot time is late enough for the loop to end. -/
theorem stepSnapshotLoop_of_late {timestamp : ℤ} (hlate : 235959900 < timestamp) (fuel : ℕ)
    {f : FState R} (hf : f.iirState.isSome) (ht : OnTick f.nextTickTimestamp) :
    stepSnapshotLoop fuel timestamp f.recorded = none := by
  induction fuel generalizing f with
  | zero => rfl
  | succ fuel ih =>
    have hlt : timestamp > f.nextSlot.nextTickTimestamp := lt_of_le_of_lt ht.advance.le hlate
    rw [stepSnapshotLoop_succ hf, if_pos hlt]
    exact ih (isSome_nextSlot hf) ht.advance

/-- **For a time after the last slot of a day, `stepSnapshotUntil` does not
    return.** -/
theorem stepSnapshotUntil_of_late {f : FState R} {timestamp : ℤ} (hf : f.iirState.isSome)
    (ht : OnTick f.nextTickTimestamp) (hlate : 235959900 < timestamp) :
    f.stepSnapshotUntil timestamp = none := by
  rw [stepSnapshotUntil_eq hf, if_pos (lt_of_le_of_lt ht.le hlate)]
  exact stepSnapshotLoop_of_late hlate _ hf ht

/-- A series that has been started and is on the grid of the day. -/
structure OnGrid (f : FState R) : Prop where
  iirState : f.iirState.isSome
  slot : ∃ k ≤ lastSlot, f.nextTickTimestamp = gridTime k

namespace OnGrid
variable {f : FState R} {timestamp : ℤ}

omit [FactorScalar R] in
theorem onTick (h : f.OnGrid) : OnTick f.nextTickTimestamp := by
  obtain ⟨k, -, hk⟩ := h.slot
  rw [hk]; exact gridTime_onTick k

/-- **Up to the last slot of the day, `stepSnapshotUntil` passes slots.** -/
theorem stepSnapshotUntil (h : f.OnGrid) (ht : timestamp ≤ 235959900) :
    ∃ n, f.stepSnapshotUntil timestamp = some (nextSlot^[n] f) ∧ (nextSlot^[n] f).OnGrid := by
  obtain ⟨k, hk, hnext⟩ := h.slot
  obtain ⟨m, hm, hge, hlt⟩ := exists_slot ht
  rcases Nat.le_total k m with hkm | hmk
  · refine ⟨m - k, stepSnapshotUntil_of_slot h.iirState hnext hkm hm hlt hge,
      isSome_nextSlot_iterate h.iirState _, m, hm, ?_⟩
    rw [nextTickTimestamp_iterate hnext (by omega), show k + (m - k) = m by omega]
  · have hle : ¬ timestamp > f.nextTickTimestamp := by
      rw [hnext]; exact not_lt.2 (hge.trans (gridTime_le hmk hk))
    exact ⟨0, by rw [stepSnapshotUntil_eq h.iirState, if_neg hle]; rfl, h⟩

theorem addRealTrade (h : f.OnGrid) (ht : timestamp ≤ 235959900) (price quantity : ℤ) :
    ∃ g, f.addRealTrade timestamp price quantity = some g ∧ g.OnGrid := by
  obtain ⟨n, hn, hg⟩ := h.stepSnapshotUntil ht
  exact ⟨_, addRealTrade_eq hn price quantity, hg.iirState, hg.slot⟩

theorem addRealTrade_of_late (h : f.OnGrid) (ht : 235959900 < timestamp) (price quantity : ℤ) :
    f.addRealTrade timestamp price quantity = none := by
  rw [FState.addRealTrade, stepSnapshotUntil_of_late h.iirState h.onTick ht]; rfl

end OnGrid

end FState

/-! ## The reference bucketing -/

structure Trade where
  timestamp : ℤ
  price : ℤ
  quantity : ℤ

/-- The trade belongs to a slot: it came after the slot before, and not after
    the slot time. -/
def Trade.InSlot (t : Trade) : ℕ → Prop
  | 0 => t.timestamp ≤ gridTime 0
  | k + 1 => gridTime k < t.timestamp ∧ t.timestamp ≤ gridTime (k + 1)

instance (t : Trade) : DecidablePred t.InSlot
  | 0 => inferInstanceAs (Decidable (_ ≤ _))
  | _ + 1 => inferInstanceAs (Decidable (_ ∧ _))

/-- The price of the last of some trades. -/
def lastPriceOf (lastPrice : ℤ) (ts : List Trade) : ℤ :=
  (ts.getLast?.map Trade.price).getD lastPrice

/-- The snapshot of a slot; `lastPrice` is the price before all trades. -/
def bucket (lastPrice : ℤ) (ts : List Trade) (k : ℕ) : Snapshot where
  lastPrice := lastPriceOf lastPrice (ts.filter (·.timestamp ≤ gridTime k))
  numTrades := (ts.filter (·.InSlot k)).length
  volume := ((ts.filter (·.InSlot k)).map Trade.quantity).sum
  amount := ((ts.filter (·.InSlot k)).map fun t => t.price * t.quantity).sum

/-- A snapshot as its counters hold it. -/
def Snapshot.stored (s : Snapshot) : Snapshot where
  lastPrice := s.lastPrice
  numTrades := Word.toSigned 32 s.numTrades
  volume := Word.toSigned 64 s.volume
  amount := Word.toSigned 64 s.amount

/-- No sum over the trades of the slot outgrows its counter. -/
structure FitsSlot (ts : List Trade) (k : ℕ) : Prop where
  numTrades : (ts.filter (·.InSlot k)).length < 2 ^ 31
  volume : ((ts.filter (·.InSlot k)).map fun t => |t.quantity|).sum < 2 ^ 63
  amount : ((ts.filter (·.InSlot k)).map fun t => |t.price * t.quantity|).sum < 2 ^ 63

/-- **A slot whose sums fit is held exactly.** -/
theorem FitsSlot.stored_bucket {lastPrice : ℤ} {ts : List Trade} {k : ℕ} (h : FitsSlot ts k) :
    (bucket lastPrice ts k).stored = bucket lastPrice ts k := by
  have hcount := h.numTrades
  simp only [Snapshot.stored, bucket, Snapshot.mk.injEq, true_and]
  exact ⟨Word.toSigned_of_range (by omega) (by exact_mod_cast hcount),
    Word.toSigned_sum h.volume, Word.toSigned_sum h.amount⟩

/-- The slot of a time: the first one not before it. -/
structure IsSlot (timestamp : ℤ) (k : ℕ) : Prop where
  le : timestamp ≤ gridTime k
  lt : ∀ j < k, gridTime j < timestamp

theorem IsSlot.inSlot {t : Trade} {k : ℕ} (h : IsSlot t.timestamp k) : t.InSlot k := by
  cases k with
  | zero => exact h.le
  | succ k => exact ⟨h.lt k (by omega), h.le⟩

/-- A trade of a slot belongs to no slot before. -/
theorem IsSlot.not_inSlot {t : Trade} {j k : ℕ} (h : IsSlot t.timestamp k) (hj : j < k) :
    ¬ t.InSlot j := by
  have hlt := h.lt j hj
  cases j with
  | zero => exact not_le.2 hlt
  | succ j => exact fun hin => absurd hin.2 (not_le.2 hlt)

/-- A trade counts in the bucket of its slot. -/
theorem bucket_append_of_isSlot {lastPrice : ℤ} {ts : List Trade} {t : Trade} {k : ℕ}
    (h : IsSlot t.timestamp k) :
    (bucket lastPrice (ts ++ [t]) k).stored =
      { (bucket lastPrice ts k).stored.count t.price t.quantity with lastPrice := t.price } := by
  simp [bucket, lastPriceOf, List.filter_append, h.inSlot, h.le, Snapshot.stored, Snapshot.count,
    Word.toSigned_add]

theorem bucket_append_of_lt {lastPrice : ℤ} {ts : List Trade} {t : Trade} {j k : ℕ}
    (h : IsSlot t.timestamp k) (hj : j < k) :
    bucket lastPrice (ts ++ [t]) j = bucket lastPrice ts j := by
  have hle : ¬ t.timestamp ≤ gridTime j := not_le.2 (h.lt j hj)
  simp [bucket, List.filter_append, h.not_inSlot hj, hle]

/-- A slot after all trades carries the last price on. -/
theorem bucket_succ {lastPrice : ℤ} {ts : List Trade} {k : ℕ}
    (h : ∀ t ∈ ts, t.timestamp ≤ gridTime k) (hk : k < lastSlot) :
    bucket lastPrice ts (k + 1) =
      { bucket lastPrice ts k with numTrades := 0, volume := 0, amount := 0 } := by
  have hin : ts.filter (·.InSlot (k + 1)) = [] := by
    rw [List.filter_eq_nil_iff]
    intro t ht hin
    exact absurd (h t ht) (not_le.2 (of_decide_eq_true hin).1)
  have hall : ∀ m, k ≤ m → m ≤ lastSlot → ts.filter (·.timestamp ≤ gridTime m) = ts := by
    intro m hkm hm
    rw [List.filter_eq_self]
    exact fun t ht => decide_eq_true ((h t ht).trans (gridTime_le hkm hm))
  simp only [bucket, hin, hall k le_rfl hk.le, hall (k + 1) (by omega) hk]
  rfl

/-- A trade belongs to its slot only. -/
theorem IsSlot.existsUnique_inSlot {t : Trade} {k m : ℕ} (h : IsSlot t.timestamp m) (hmk : m ≤ k)
    (hk : k ≤ lastSlot) : ∃! j, j ≤ k ∧ t.InSlot j := by
  refine ⟨m, ⟨hmk, h.inSlot⟩, fun j ⟨hjk, hj⟩ => ?_⟩
  rcases Nat.lt_trichotomy j m with hjm | rfl | hmj
  · exact absurd hj (h.not_inSlot hjm)
  · rfl
  · obtain ⟨i, rfl⟩ : ∃ i, j = i + 1 := ⟨j - 1, by omega⟩
    exact absurd (h.le.trans (gridTime_le (by omega) (by omega))) (not_le.2 hj.1)

/-! ## The series of a day -/

/-- The time of the last trade, or the opening. -/
def lastTime (ts : List Trade) : ℤ := (ts.getLast?.map Trade.timestamp).getD 93000000

/-- The series is at slot `k`, and is the bucketing of the trades so far. -/
structure Bucketed (lastPrice : ℤ) (ts : List Trade) (k : ℕ) (f : FState R) : Prop where
  nextTickTimestamp : f.nextTickTimestamp = gridTime k
  snapshots : f.snapshots = (List.range k).map fun j => (bucket lastPrice ts j).stored
  currSnapshot : f.currSnapshot = (bucket lastPrice ts k).stored

namespace Bucketed
variable {lastPrice : ℤ} {ts : List Trade} {k : ℕ} {f : FState R}

theorem nextSlot (h : Bucketed lastPrice ts k f) (hle : ∀ t ∈ ts, t.timestamp ≤ gridTime k)
    (hk : k < lastSlot) : Bucketed lastPrice ts (k + 1) f.nextSlot where
  nextTickTimestamp := by
    rw [FState.nextSlot, h.nextTickTimestamp, gridTime_succ hk]
  snapshots := by
    rw [FState.nextSlot, h.snapshots, h.currSnapshot, List.range_succ, List.map_append]
    rfl
  currSnapshot := by
    rw [bucket_succ hle hk, FState.nextSlot, h.currSnapshot]
    rfl

theorem iterate (h : Bucketed lastPrice ts k f) (hle : ∀ t ∈ ts, t.timestamp ≤ gridTime k) {n : ℕ}
    (hn : k + n ≤ lastSlot) : Bucketed lastPrice ts (k + n) (FState.nextSlot^[n] f) := by
  induction n with
  | zero => exact h
  | succ n ih =>
    rw [Function.iterate_succ_apply', ← Nat.add_assoc]
    refine nextSlot (ih (by omega)) (fun t ht => ?_) (by omega)
    exact (hle t ht).trans (gridTime_le (by omega) (by omega))

/-- One trade: the series passes to the slot of the trade, which counts it. -/
theorem addRealTrade (h : Bucketed lastPrice ts k f) (hf : f.iirState.isSome)
    (hle : ∀ t ∈ ts, t.timestamp ≤ gridTime k) {t : Trade} {m : ℕ} (ht : IsSlot t.timestamp m)
    (hkm : k ≤ m) (hm : m ≤ lastSlot) :
    ∃ g, f.addRealTrade t.timestamp t.price t.quantity = some g ∧ g.iirState.isSome ∧
      Bucketed lastPrice (ts ++ [t]) m g := by
  have hb := h.iterate hle (n := m - k) (by omega)
  rw [show k + (m - k) = m by omega] at hb
  refine ⟨_, FState.addRealTrade_eq
    (FState.stepSnapshotUntil_of_slot hf h.nextTickTimestamp hkm hm ht.lt ht.le) _ _,
    FState.isSome_nextSlot_iterate hf _, ?_⟩
  constructor
  · exact hb.nextTickTimestamp
  · rw [FState.countTrade, hb.snapshots]
    refine List.map_congr_left fun j hj => ?_
    rw [bucket_append_of_lt ht (List.mem_range.1 hj)]
  · rw [bucket_append_of_isSlot ht, ← hb.currSnapshot]
    rfl

omit [FactorScalar R] in
/-- A slot whose sums fit holds its bucket. -/
theorem getElem?_of_fits (h : Bucketed lastPrice ts k f) {j : ℕ} (hj : j ≤ k)
    (hfits : FitsSlot ts j) :
    (f.snapshots ++ [f.currSnapshot])[j]? = some (bucket lastPrice ts j) := by
  have hall : f.snapshots ++ [f.currSnapshot] =
      (List.range (k + 1)).map fun j => (bucket lastPrice ts j).stored := by
    rw [h.snapshots, h.currSnapshot, List.range_succ, List.map_append]
    rfl
  rw [hall, List.getElem?_map, List.getElem?_range (by omega), Option.map_some,
    hfits.stored_bucket]

end Bucketed

/-- Calls of `addRealTrade`. -/
def StockCompute.addRealTrades : StockCompute R → List Trade → Option (StockCompute R)
  | c, [] => some c
  | c, t :: ts => do
    let c ← c.addRealTrade t.timestamp t.price t.quantity
    c.addRealTrades ts

/-- A started stock; the call auction has set the last price. -/
def StockCompute.opened (s : StockState) (lastPrice : ℤ) : StockCompute R :=
  let c := ({} : StockCompute R).start s
  { c with fState := { c.fState with currSnapshot := { c.fState.currSnapshot with lastPrice } } }

theorem lastTime_append (ts : List Trade) (t : Trade) : lastTime (ts ++ [t]) = t.timestamp := by
  simp [lastTime]

theorem le_lastTime {ts : List Trade} (hsorted : ts.Pairwise fun t u => t.timestamp ≤ u.timestamp)
    {t : Trade} (ht : t ∈ ts) : t.timestamp ≤ lastTime ts := by
  rcases List.eq_nil_or_concat ts with rfl | ⟨l, u, rfl⟩
  · exact absurd ht List.not_mem_nil
  · rw [List.concat_eq_append] at ht hsorted ⊢
    rw [lastTime_append]
    rcases List.mem_append.1 ht with ht | ht
    · exact (List.pairwise_append.1 hsorted).2.2 t ht u (List.mem_singleton_self u)
    · rw [List.mem_singleton.1 ht]

/-- The slots of the trades do not go back. -/
theorem slot_le_slot {ts : List Trade} {t : Trade} {k m : ℕ} (hk : IsSlot (lastTime ts) k)
    (hsorted : (ts ++ [t]).Pairwise fun t u => t.timestamp ≤ u.timestamp)
    (hm : IsSlot t.timestamp m) : k ≤ m := by
  by_contra hmk
  have hlt := hk.lt m (by omega)
  rcases List.eq_nil_or_concat ts with rfl | ⟨l, u, rfl⟩
  · have h0 := hk.lt 0 (by omega)
    rw [gridTime_zero] at h0
    exact absurd h0 (by decide)
  · rw [List.concat_eq_append] at hlt hsorted
    rw [lastTime_append] at hlt
    have hle := (List.pairwise_append.1 hsorted).2.2 u (by simp) t (List.mem_singleton_self t)
    exact absurd hm.le (not_le.2 (hlt.trans_le hle))

/-- A run of trades keeps the series bucketed. -/
theorem addRealTrades_bucketed {lastPrice : ℤ} {us ts : List Trade} {k : ℕ} {c : StockCompute R}
    (hlast : k ≤ lastSlot) (hb : Bucketed lastPrice ts k c.fState)
    (hf : c.fState.iirState.isSome) (hk : IsSlot (lastTime ts) k)
    (hsorted : (ts ++ us).Pairwise fun t u => t.timestamp ≤ u.timestamp)
    (hday : ∀ t ∈ us, t.timestamp ≤ 235959900) :
    ∃ (d : StockCompute R) (m : ℕ), c.addRealTrades us = some d ∧ m ≤ lastSlot ∧
      IsSlot (lastTime (ts ++ us)) m ∧ Bucketed lastPrice (ts ++ us) m d.fState := by
  induction us generalizing ts k c with
  | nil => rw [List.append_nil]; exact ⟨c, k, rfl, hlast, hk, hb⟩
  | cons t us ih =>
    rw [List.append_cons] at hsorted ⊢
    have hfirst := (List.pairwise_append.1 hsorted).1
    obtain ⟨m, hm, hle, hlt⟩ := exists_slot (hday t List.mem_cons_self)
    have hslot : IsSlot t.timestamp m := ⟨hle, hlt⟩
    obtain ⟨g, hg, hgf, hgb⟩ := hb.addRealTrade hf
      (fun u hu => (le_lastTime (List.pairwise_append.1 hfirst).1 hu).trans hk.le) hslot
      (slot_le_slot hk hfirst hslot) hm
    have hc : c.addRealTrade t.timestamp t.price t.quantity = some { c with fState := g } := by
      rw [StockCompute.addRealTrade, hg]; rfl
    rw [StockCompute.addRealTrades, hc]
    exact ih hm hgb hgf (by rw [lastTime_append]; exact hslot) hsorted
      fun u hu => hday u (List.mem_cons_of_mem t hu)

/-- **The snapshot series is the bucketing of the trades**, as its counters hold it;
    exactly so in every slot whose sums fit; and each trade is in one bucket. -/
theorem addRealTrades_buckets {s : StockState} (hs : s.alive) (lastPrice : ℤ) {ts : List Trade}
    (hsorted : ts.Pairwise fun t u => t.timestamp ≤ u.timestamp)
    (hday : ∀ t ∈ ts, t.timestamp ≤ 235959900) :
    ∃ (c : StockCompute R) (k : ℕ), (StockCompute.opened s lastPrice).addRealTrades ts = some c ∧
      IsSlot (lastTime ts) k ∧ Bucketed lastPrice ts k c.fState ∧
      (∀ j ≤ k, FitsSlot ts j → (c.fState.snapshots ++ [c.fState.currSnapshot])[j]? =
        some (bucket lastPrice ts j)) ∧
      ∀ t ∈ ts, ∃! j, j ≤ k ∧ t.InSlot j := by
  have hb : Bucketed lastPrice [] 0 (StockCompute.opened (R := R) s lastPrice).fState := by
    refine ⟨?_, ?_, ?_⟩ <;> simp only [StockCompute.opened, StockCompute.start, if_pos hs]
    · exact gridTime_zero.symm
    · rfl
    · rfl
  have hf : (StockCompute.opened (R := R) s lastPrice).fState.iirState.isSome := by
    simp only [StockCompute.opened, StockCompute.start, if_pos hs, Option.isSome_some]
  have h0 : IsSlot (lastTime []) 0 := ⟨by rw [gridTime_zero]; rfl, fun j hj => absurd hj (by omega)⟩
  obtain ⟨c, k, hc, hk, hslot, hbuckets⟩ := addRealTrades_bucketed (Nat.zero_le _) hb hf h0
    (by rw [List.nil_append]; exact hsorted) hday
  rw [List.nil_append] at hslot hbuckets
  refine ⟨c, k, hc, hslot, hbuckets, fun j hj hfits => hbuckets.getElem?_of_fits hj hfits,
    fun t ht => ?_⟩
  obtain ⟨m, hm, hle, hlt⟩ := exists_slot (hday t ht)
  refine IsSlot.existsUnique_inSlot ⟨hle, hlt⟩ ?_ hk
  by_contra hkm
  exact absurd ((le_lastTime hsorted ht).trans hslot.le) (not_le.2 (hlt k (by omega)))

theorem addRealTrades_buckets_lunch :
    let ts : List Trade := [⟨112959950, 1000, 300⟩, ⟨130000050, 1001, 200⟩]
    ∃ (c : StockCompute ℚ) (k : ℕ),
      (StockCompute.opened { alive := true, preClosePrice := 990 } 990).addRealTrades ts = some c ∧
      IsSlot (lastTime ts) k ∧ Bucketed 990 ts k c.fState ∧
      (∀ j ≤ k, FitsSlot ts j → (c.fState.snapshots ++ [c.fState.currSnapshot])[j]? =
        some (bucket 990 ts j)) ∧
      ∀ t ∈ ts, ∃! j, j ≤ k ∧ t.InSlot j :=
  addRealTrades_buckets rfl 990 (by simp) (by simp)

/-- The amounts of three trades of one slot may be too much for its counter. -/
theorem not_addRealTrades_buckets_overflow :
    let t : Trade := ⟨93000000, 2147483647, 2147483647⟩
    ∃ c : StockCompute ℚ,
      (StockCompute.opened { alive := true, preClosePrice := 990 } 990).addRealTrades [t, t, t] =
        some c ∧
      c.fState.nextTickTimestamp = gridTime 0 ∧ c.fState.currSnapshot ≠ bucket 990 [t, t, t] 0 :=
  ⟨_, rfl, gridTime_zero.symm, by decide⟩

end Mdd2
