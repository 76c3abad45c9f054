/-
  Every run of the program is, for each stock, a run of its two threads.

  A compute thread works on one stock after the other, on ticks that other stocks pushed to
  the same ring; the phase of a stock is read off what is left of the loop that the thread
  is in.

  * `Thread.Within`: the loops run over ids of the channel, each once;
  * `ThreadStep.moves`, `TickStep.moves`: a step is a step of one stock, or of none;
  * `Inv.step`, `Refines.step`: the invariants of a run;
  * `program_refines`: the simulation.
-/
import Mdd2.Lib.Trace
import Mdd2.Program
import Mdd2.Proof.ApproachSelect
import Mdd2.Proof.BuySafety
import Mdd2.Proof.Ownership

namespace Mdd2

open MDD (InBounds tickRing channels idsFrom startId stopId Owned)

/-- A run of the two threads of a stock, with what they emitted. -/
abbrev System.Run {R : Type} [FactorScalar R] (b : Build) (model : StockCompute R → Bool) :
    System R → List (Effect b) → Prop :=
  Trace.Run (fun w => ∃ s s', w = System.init s s') (System.Step b model)

theorem System.Run.reachable {R : Type} [FactorScalar R] {b : Build} {model : StockCompute R → Bool}
    {w : System R} {es : List (Effect b)} (h : System.Run b model w es) :
    System.Reachable b model w :=
  Trace.Run.inv (P := fun w _ => System.Reachable b model w)
    (by rintro w ⟨s, s', rfl⟩; exact .init s s') (fun _ _ _ _ hw hs => hw.step hs) h

theorem System.stutter_compute {R : Type} [FactorScalar R] {b : Build}
    {model : StockCompute R → Bool} {s : StockState} {c : Option Checking} {t u : ComputeThread R}
    {ds new : List Decision} (h : Trace.Stutter (ComputeThread.Step b model) t new u) :
    Trace.Stutter (System.Step b model) ⟨s, c, t, ds⟩ [] ⟨s, c, u, ds ++ new⟩ := by
  cases h with
  | stay => rw [List.append_nil]; exact .stay
  | step hstep => exact .step (.compute hstep)

namespace Program
variable {b : Build} {R : Type}

/-! ## Threads -/

namespace Thread

/-- The ticks fetched that are not handled yet. -/
def tickBuf : Thread b → List b.Tick
  | ticks tickBuf => tickBuf
  | _ => []

/-- Where the thread is, as a stock of its range sees it. -/
def phase (t : Thread b) (id : Int32) : ComputeThread.Phase :=
  match t with
  | idle | top => .clear
  | clear ids => if id ∈ ids then .clear else .drain
  | fetch | ticks _ => .drain
  | check ids approachStockIds =>
    if id ∈ ids then .drain else if id ∈ approachStockIds then .approach else .clear
  | approach ids => if id ∈ ids then .approach else .clear
  | second i ids => if id = i then .second else if id ∈ ids then .approach else .clear
  | ended outer => if outer then .clear else .drain

/-- The ids of the loop that the thread is in, with those that it has found. -/
def ids : Thread b → List Int32
  | clear ids | approach ids => ids
  | check ids approachStockIds => approachStockIds ++ ids
  | second id ids => id :: ids
  | _ => []

/-- A loop runs over ids of the range, each once. -/
structure Within (t : Thread b) (range : List Int32) : Prop where
  nodup : t.ids.Nodup
  subset : ∀ id ∈ t.ids, id ∈ range

theorem within_nil {t : Thread b} {range : List Int32} (h : t.ids = []) : t.Within range :=
  ⟨by rw [h]; exact List.nodup_nil, by rw [h]; exact fun _ hid => absurd hid List.not_mem_nil⟩

theorem Within.subperm {t u : Thread b} {range : List Int32} (h : t.Within range)
    (hsub : u.ids.Subperm t.ids) : u.Within range := by
  obtain ⟨l, hperm, hl⟩ := hsub
  exact ⟨hperm.nodup_iff.1 (h.nodup.sublist hl),
    fun id hid => h.subset id (hl.subset (hperm.mem_iff.2 hid))⟩

theorem Within.sublist {t u : Thread b} {range : List Int32} (h : t.Within range)
    (hsub : u.ids.Sublist t.ids) : u.Within range := h.subperm hsub.subperm

end Thread

/-- `std::nth_element` rearranges its range, whatever the comparator answers. -/
def Setup.Rearranges (p : Setup R) : Prop :=
  ∀ amount ids kept, ApproachSelect.select amount ids (p.nth_element ids) = some kept →
    3 < ids.length → ∃ dropped, (kept ++ dropped).Perm ids

theorem Setup.Rearranges.subperm {p : Setup R} (h : p.Rearranges) {amount : Int32 → ℤ}
    {ids kept : List Int32}
    (hselect : ApproachSelect.select amount ids (p.nth_element ids) = some kept) :
    kept.Subperm ids := by
  by_cases hlen : 3 < ids.length
  · obtain ⟨dropped, hperm⟩ := h amount ids kept hselect hlen
    exact (List.sublist_append_left kept dropped).subperm.trans hperm.subperm
  · rw [ApproachSelect.select, if_neg hlen, Option.some.injEq] at hselect
    rw [hselect]

/-! ## Invariants -/

/-- The compute of the stock has been started. -/
def Main.Started (id : Int32) : Main → Prop
  | statics => False
  | startComputes next => id.toInt.toNat < next
  | _ => True

/-- The number of compute threads that have been started. -/
def Main.launched (count : ℕ) : Main → ℕ
  | statics | startComputes _ => 0
  | startThreads next => next
  | _ => count

/-- The number of compute threads that have ended. -/
def Main.joined (count : ℕ) : Main → ℕ
  | stopThreads next => next
  | stopComputes _ | stopStates _ => count
  | _ => 0

/-- The stocks and the ticks, as the results on the owners of the stocks have them. -/
def traffic (w : Program b R) : MDD.State b where
  stockStates := w.states
  tickRings := w.rings
  fetched c := (w.threads c).tickBuf

/-- The invariant of a run. -/
structure Inv (p : Setup R) (w : Program b R) : Prop where
  traffic : MDD.Inv b p.kChannelCount p.stockCodes w.traffic
  within : ∀ c, (w.threads c).Within (p.range c)
  launched : ∀ c, w.threads c ≠ .idle → ∃ n < w.main.launched p.count, c = .ofNat n
  ended : ∀ n < w.main.joined p.count, ∃ outer, w.threads (.ofNat n) = .ended outer
  checking : ¬ w.main.Receives → ∀ id, w.checking id = none

theorem inv_init (p : Setup R) : Inv p (init p : Program b R) where
  traffic := MDD.inv_init
  within _ := Thread.within_nil rfl
  launched _ h := absurd rfl h
  ended _ h := absurd h (Nat.not_lt_zero _)
  checking _ _ := rfl

variable {p : Setup R} {w v : Program b R}

omit p in
@[simp] theorem main_setCompute (id : Int32) (compute : StockCompute R) :
    (w.setCompute id compute).main = w.main := rfl

omit p in
@[simp] theorem main_emit (id c : Int32) (r : StockState × List (Effect b)) (reject : Bool) :
    (w.emit id c r reject).main = w.main := rfl

/-- A thread that has not ended goes on. -/
theorem Inv.setThread (h : Inv p w) (hmain : v.main = w.main) (hchecking : v.checking = w.checking)
    (hstates : v.states = w.states) (hrings : ∀ c, ∀ tick ∈ v.rings c, tick ∈ w.rings c)
    {c : Int32} {t : Thread b} (hthreads : v.threads = Function.update w.threads c t)
    (hlaunched : ∃ n < w.main.launched p.count, c = .ofNat n)
    (hended : ∀ n < w.main.joined p.count, Int32.ofNat n ≠ c)
    (hwithin : t.Within (p.range c))
    (hbuf : ∀ tick ∈ t.tickBuf, Owned b p.kChannelCount p.stockCodes c tick) : Inv p v where
  traffic := by
    obtain ⟨hcode, halive, howned, hfetched⟩ := h.traffic
    refine ⟨fun i => ?_, fun i => ?_, fun i tick ht => howned i tick (hrings i tick ht), ?_⟩
    · simp only [Program.traffic, hstates]; exact hcode i
    · simp only [Program.traffic, hstates]; exact halive i
    · intro i tick ht
      simp only [Program.traffic, hthreads] at ht
      by_cases hi : i = c
      · subst hi; rw [Function.update_self] at ht; exact hbuf tick ht
      · rw [Function.update_of_ne hi] at ht; exact hfetched i tick ht
  within i := by
    rw [hthreads]
    by_cases hi : i = c
    · subst hi; rwa [Function.update_self]
    · rw [Function.update_of_ne hi]; exact h.within i
  launched i hi := by
    rw [hmain]
    by_cases hic : i = c
    · rwa [hic]
    · rw [hthreads, Function.update_of_ne hic] at hi; exact h.launched i hi
  ended n hn := by
    rw [hmain] at hn
    rw [hthreads, Function.update_of_ne (hended n hn)]
    exact h.ended n hn
  checking hn := by rw [hchecking]; exact h.checking (hmain ▸ hn)

/-- A thread that runs goes on. -/
theorem Inv.thread (h : Inv p w) (hmain : v.main = w.main) (hchecking : v.checking = w.checking)
    (hstates : v.states = w.states) (hrings : ∀ c, ∀ tick ∈ v.rings c, tick ∈ w.rings c)
    {c : Int32} {t : Thread b} (hthreads : v.threads = Function.update w.threads c t)
    (hidle : w.threads c ≠ .idle) (hended : ∀ outer, w.threads c ≠ .ended outer)
    (hwithin : t.Within (p.range c))
    (hbuf : ∀ tick ∈ t.tickBuf, Owned b p.kChannelCount p.stockCodes c tick) : Inv p v := by
  refine h.setThread hmain hchecking hstates hrings hthreads (h.launched c hidle)
    (fun n hn hc => ?_) hwithin hbuf
  obtain ⟨outer, hout⟩ := h.ended n hn
  exact hended outer (hc ▸ hout)

/-- What the program relies on: there is a channel, the codes have six digits and fit into
    the table, and `std::nth_element` rearranges. -/
structure Setup.Valid (p : Setup R) : Prop where
  count : 1 ≤ p.kChannelCount.toInt
  sixDigits : ∀ code ∈ p.stockCodes, StockState.SixDigits code
  length : p.stockCodes.length ≤ 65536
  rearranges : p.Rearranges

omit w v in
theorem Setup.Valid.mem_range (hp : p.Valid) {c id : Int32} (hc : c ∈ channels p.kChannelCount) :
    id ∈ p.range c ↔ p.ring id = some c := by
  have hlen := hp.length
  rw [Setup.ring, MDD.tickRing_eq_some_iff hp.count (by omega)]
  exact ⟨fun h => ⟨hc, h⟩, And.right⟩

/-- The main thread goes on. -/
theorem Inv.setMain (h : Inv p w) {m : Main}
    (hlaunched : w.main.launched p.count ≤ m.launched p.count)
    (hended : ∀ n < m.joined p.count, ∃ outer, w.threads (.ofNat n) = .ended outer)
    (hchecking : ¬ m.Receives → ∀ id, w.checking id = none) : Inv p { w with main := m } where
  traffic := h.traffic
  within := h.within
  launched c hc := by
    obtain ⟨n, hn, rfl⟩ := h.launched c hc
    exact ⟨n, hn.trans_le hlaunched, rfl⟩
  ended := hended
  checking := hchecking

theorem Inv.setCompute (h : Inv p w) (id : Int32) (compute : StockCompute R) :
    Inv p (w.setCompute id compute) :=
  ⟨h.traffic, h.within, h.launched, h.ended, h.checking⟩

/-- A call on a stock ends. -/
theorem Inv.emit (h : Inv p w) (hsix : ∀ code ∈ p.stockCodes, StockState.SixDigits code)
    {id c : Int32} {tick : Option b.Tick} {r : StockState × List (Effect b)} {reject : Bool}
    (hid : InBounds p.stockCodes id) (hring : p.ring id = some c)
    (hr : MDD.Handles (w.states id) tick r)
    (htick : ∀ t, tick = some t → p.idOf b t = id) : Inv p (w.emit id c r reject) where
  traffic := by
    have hkept : (if reject then [] else pushed r.2).Sublist (pushed r.2) := by
      split_ifs
      · exact List.nil_sublist _
      · exact List.Sublist.refl _
    exact h.traffic.handles hsix hid hring hr hkept htick
  within := h.within
  launched := h.launched
  ended := h.ended
  checking := h.checking

theorem Inv.setChecking (h : Inv p w) (id : Int32) (checking : Option Checking)
    (hmain : checking.isSome → w.main.Receives) : Inv p (w.setChecking id checking) where
  traffic := h.traffic
  within := h.within
  launched := h.launched
  ended := h.ended
  checking hn i := by
    by_cases hi : i = id
    · subst hi
      simp only [Program.setChecking, Function.update_self]
      cases checking with
      | none => rfl
      | some => exact absurd (hmain rfl) hn
    · simpa only [Program.setChecking, Function.update_of_ne hi] using h.checking hn i

/-- A call is in progress only while ticks arrive. -/
theorem Inv.receives (h : Inv p w) {id : Int32} {checking : Checking}
    (hid : w.checking id = some checking) : w.main.Receives := by
  by_contra hn
  rw [h.checking hn id] at hid
  exact absurd hid (by simp)

theorem handles_onIntent {s : StockState} (alwaysBuy : Bool) (timestamp : ℤ)
    (intent : WantCache.Intent) :
    MDD.Handles s none (s.onIntent b alwaysBuy timestamp intent) := by
  obtain ⟨hcode, halive, hpushed⟩ := MDD.handles_stop (b := b) (s := s) (timestamp + intent.toInt)
  refine ⟨hcode, halive, fun t ht => hpushed t ?_⟩
  rw [StockState.onIntent, pushed_append] at ht
  rcases List.mem_append.1 ht with ht | ht
  · split_ifs at ht <;> exact absurd ht List.not_mem_nil
  · exact ht

variable [FactorScalar R]

omit [FactorScalar R] in
theorem Setup.nodup_range (p : Setup R) (c : Int32) : (p.range c).Nodup := by
  refine List.Nodup.map_on (fun k hk m hm h => ?_) List.nodup_range
  rw [List.mem_range] at hk hm
  have hlt := UInt32.toNat_lt
    (stopId p.kChannelCount p.stockCodes.length c -
      startId p.kChannelCount p.stockCodes.length c).toUInt32
  have heq := congrArg (fun x : Int32 => x.toUInt32.toNat) ((Int32.add_right_inj _).1 h)
  simp only [Int32.toUInt32_ofNat', UInt32.toNat_ofNat'] at heq
  rwa [Nat.mod_eq_of_lt (hk.trans hlt), Nat.mod_eq_of_lt (hm.trans hlt)] at heq

theorem Inv.threadStep (h : Inv p w) (hp : p.Valid) {c : Int32} (hs : ThreadStep p c w v) :
    Inv p v := by
  have hrings : ∀ i, ∀ tick ∈ w.rings i, tick ∈ w.rings i := fun _ _ => id
  have hbuf : ∀ tick ∈ (w.threads c).tickBuf, Owned b p.kChannelCount p.stockCodes c tick :=
    fun tick ht => h.traffic.fetched c tick ht
  have hnil : ∀ tick ∈ ([] : List b.Tick), Owned b p.kChannelCount p.stockCodes c tick :=
    fun tick ht => absurd ht List.not_mem_nil
  have hw := h.within c
  cases hs with
  | round hpc =>
    exact h.thread rfl rfl rfl hrings rfl (by simp [hpc]) (by simp [hpc])
      ⟨p.nodup_range c, fun _ => id⟩ hnil
  | clearApproach hpc | skip hpc _ =>
    rw [hpc] at hw
    exact h.thread rfl rfl rfl hrings rfl (by simp [hpc]) (by simp [hpc])
      (hw.sublist (List.sublist_cons_self _ _)) hnil
  | cleared hpc | again hpc | done hpc | leaveOuter _ _ hpc | leaveInner _ _ hpc =>
    exact h.thread rfl rfl rfl hrings rfl (by simp [hpc]) (by simp [hpc])
      (Thread.within_nil rfl) hnil
  | fetchSomeTicks hpc hn =>
    refine h.thread rfl rfl rfl (fun i tick ht => ?_) rfl (by simp [hpc]) (by simp [hpc])
      (Thread.within_nil rfl) fun tick ht => h.traffic.rings c tick (List.mem_of_mem_take ht)
    by_cases hi : i = c
    · subst hi
      simp only [Function.update_self] at ht
      exact List.mem_of_mem_drop ht
    · simpa only [Function.update_of_ne hi] using ht
  | drop hpc _ =>
    rw [hpc] at hbuf
    exact h.thread rfl rfl rfl hrings rfl (by simp [hpc]) (by simp [hpc])
      (Thread.within_nil rfl) fun tick ht => hbuf tick (List.mem_cons_of_mem _ ht)
  | onTick hpc _ _ _ _ =>
    rw [hpc] at hbuf
    exact h.thread rfl rfl rfl hrings rfl (by simp [hpc]) (by simp [hpc])
      (Thread.within_nil rfl) fun tick ht => hbuf tick (List.mem_cons_of_mem _ ht)
  | wake hpc =>
    exact h.thread rfl rfl rfl hrings rfl (by simp [hpc]) (by simp [hpc])
      ⟨p.nodup_range c, fun _ => id⟩ hnil
  | @checkApproach id ids approachStockIds hpc =>
    rw [hpc] at hw
    refine h.thread rfl rfl rfl hrings rfl (by simp [hpc]) (by simp [hpc]) (hw.sublist ?_) hnil
    simp only [Thread.ids]
    split_ifs
    · rw [List.append_assoc]; exact List.Sublist.refl _
    · exact (List.sublist_cons_self id ids).append_left _
  | select hpc hselect =>
    rw [hpc] at hw
    refine h.thread rfl rfl rfl hrings rfl (by simp [hpc]) (by simp [hpc]) (hw.subperm ?_) hnil
    simpa only [Thread.ids, List.append_nil] using hp.rearranges.subperm hselect
  | @first id ids r hpc _ _ =>
    rw [hpc] at hw
    refine h.thread rfl rfl rfl hrings rfl (by simp [hpc]) (by simp [hpc]) ?_ ?_
    · split_ifs
      · exact ⟨hw.nodup, hw.subset⟩
      · exact hw.sublist (List.sublist_cons_self _ _)
    · split_ifs <;> exact hnil
  | second hpc _ =>
    rw [hpc] at hw
    exact h.thread rfl rfl rfl hrings rfl (by simp [hpc]) (by simp [hpc])
      (hw.sublist (List.sublist_cons_self _ _)) hnil

omit [FactorScalar R] in
theorem Inv.tickStep (h : Inv p w) (hp : p.Valid) (hs : TickStep p w v) : Inv p v := by
  cases hs with
  | tick tick check reject _ hlookup _ hid hring _ _ _ =>
    refine h.emit hp.sixDigits hid hring (MDD.handles_onTick check tick) fun t ht => ?_
    rw [← Option.some.inj ht, hlookup]
  | @check id timestamp tick hmain hlookup _ hid _ halive _ =>
    have hset := h.setChecking id
      (some ⟨timestamp, .first timestamp ((w.caches id).wantBuyTimestamp 0), 1⟩) fun _ => hmain
    refine ⟨h.traffic.setStock (fun _ => ?_) fun _ _ => h.traffic.alive id hid halive,
      hset.within, hset.launched, hset.ended, hset.checking⟩
    rw [StockState.limitUp_stockCode]
    exact h.traffic.stockCode id hid
  | load _ _ hchecking => exact h.setChecking _ _ fun _ => h.receives hchecking
  | answer reject hid hring hchecking _ _ =>
    exact (h.emit hp.sixDigits hid hring (handles_onIntent false _ _) (fun t ht => absurd ht
      (by simp))).setChecking _ _ fun hsome => absurd hsome (by simp)

/-- The ids of the stocks. -/
theorem inBounds_ofNat {stockCodes : List Int32} (hlen : stockCodes.length ≤ 65536) {i : ℕ}
    (hi : i < stockCodes.length) : InBounds stockCodes (.ofNat i) := by
  rw [InBounds, MDD.toInt_ofNat (by omega)]
  omega

theorem Inv.mainStep (h : Inv p w) (hp : p.Valid) (hs : MainStep p w v) : Inv p v := by
  have hlen := hp.length
  cases hs with
  | handleStatic stat hmain hlookup _ hid =>
    refine ⟨h.traffic.setStock (fun _ => ?_) fun _ _ => MDD.lookupStockId_self hlen hlookup hid,
      h.within, h.launched, h.ended, h.checking⟩
    rw [MDD.onStatic_stockCode]
    exact h.traffic.stockCode _ hid
  | startReceive hmain =>
    exact h.setMain (by simp [hmain, Main.launched])
      (fun n hn => absurd hn (Nat.not_lt_zero n)) fun hn => absurd trivial hn
  | startCompute hmain hi =>
    exact (h.setCompute _ _).setMain (by simp [hmain, Main.launched])
      (fun n hn => absurd hn (Nat.not_lt_zero n)) fun hn => absurd trivial hn
  | computesStarted hmain =>
    exact h.setMain (by simp [hmain, Main.launched]) (fun n hn => absurd hn (Nat.not_lt_zero n))
      fun hn => absurd trivial hn
  | @startThread c hmain hc =>
    refine (h.setMain (m := .startThreads (c + 1)) (by simp [hmain, Main.launched])
      (fun n hn => absurd hn (Nat.not_lt_zero n)) fun hn => absurd trivial hn).setThread rfl rfl rfl
      (fun _ _ => id) rfl ⟨c, Nat.lt_succ_self c, rfl⟩ (fun n hn => absurd hn (Nat.not_lt_zero n))
      (Thread.within_nil rfl) fun tick ht => absurd ht List.not_mem_nil
  | started hmain =>
    exact h.setMain (by simp [hmain, Main.launched]) (fun n hn => absurd hn (Nat.not_lt_zero n))
      fun hn => absurd trivial hn
  | stop hmain hchecking =>
    exact h.setMain (by simp [hmain, Main.launched]) (fun n hn => absurd hn (Nat.not_lt_zero n))
      fun _ => hchecking
  | @join c outer hmain hc hended =>
    refine h.setMain (by simp [hmain, Main.launched]) (fun n hn => ?_) fun _ =>
      h.checking (by simp [hmain, Main.Receives])
    rcases Nat.lt_succ_iff_lt_or_eq.1 hn with hn | rfl
    · exact h.ended n (by rwa [hmain])
    · exact ⟨outer, hended⟩
  | joined hmain =>
    exact h.setMain (by simp [hmain, Main.launched]) (fun n hn => h.ended n (by rwa [hmain]))
      fun _ => h.checking (by simp [hmain, Main.Receives])
  | stopCompute hmain hi =>
    exact (h.setCompute _ _).setMain (by simp [hmain, Main.launched])
      (fun n hn => h.ended n (by rwa [hmain])) fun _ => h.checking (by simp [hmain, Main.Receives])
  | computesStopped hmain =>
    exact h.setMain (by simp [hmain, Main.launched]) (fun n hn => h.ended n (by rwa [hmain]))
      fun _ => h.checking (by simp [hmain, Main.Receives])
  | @stopState i c reject hmain hi hring _ =>
    exact (h.emit hp.sixDigits (inBounds_ofNat hlen hi) hring (MDD.handles_stop 0)
      fun t ht => absurd ht (by simp)).setMain (by simp [hmain, Main.launched])
      (fun n hn => h.ended n (by rwa [hmain])) fun _ => h.checking (by simp [hmain, Main.Receives])

theorem Inv.step (h : Inv p w) (hp : p.Valid) (hs : Step p w v) : Inv p v := by
  cases hs with
  | main hs => exact h.mainStep hp hs
  | tick hs => exact h.tickStep hp hs
  | thread _ hs => exact h.threadStep hp hs

theorem Reachable.inv (hp : p.Valid) (h : Reachable p w) : Inv p w := by
  induction h with
  | init => exact inv_init p
  | step _ hs ih => exact ih.step hp hs

/-! ## The simulation -/

/-- The compute thread of the channel, as the stock sees it. -/
def compute (w : Program b R) (c id : Int32) : ComputeThread R :=
  ⟨(w.threads c).phase id, w.computes id, w.caches id⟩

/-- Both threads, as the stock sees them. -/
def view (w : Program b R) (c id : Int32) : System R :=
  ⟨w.states id, w.checking id, w.compute c id, w.decisions id⟩

/-- What a compute thread leaves alone. -/
structure Frame (p : Setup R) (c : Int32) (w v : Program b R) : Prop where
  main : v.main = w.main
  states : v.states = w.states
  checking : v.checking = w.checking
  effects : v.effects = w.effects
  overflowed : v.overflowed = w.overflowed
  threads : ∀ i, i ≠ c → v.threads i = w.threads i
  rings : ∀ i, i ≠ c → v.rings i = w.rings i
  stocks : ∀ id, p.ring id ≠ some c → v.computes id = w.computes id ∧ v.caches id = w.caches id ∧
    v.handled id = w.handled id ∧ v.decisions id = w.decisions id

/-- **A compute thread leaves the stocks of other channels alone.** -/
theorem ThreadStep.frame (h : Inv p w) (hp : p.Valid) {c : Int32}
    (hc : c ∈ channels p.kChannelCount) (hs : ThreadStep p c w v) : Frame p c w v := by
  have hne : ∀ {id i : Int32}, p.ring id ≠ some c → i ∈ (w.threads c).ids → id ≠ i := by
    rintro id i hid hi rfl
    exact hid ((hp.mem_range hc).1 ((h.within c).subset id hi))
  cases hs with
  | round | cleared | drop | again | wake | select | skip | done | leaveOuter | leaveInner =>
    exact ⟨rfl, rfl, rfl, rfl, rfl, fun i hi => Function.update_of_ne hi _ _, fun _ _ => rfl,
      fun _ _ => ⟨rfl, rfl, rfl, rfl⟩⟩
  | fetchSomeTicks =>
    exact ⟨rfl, rfl, rfl, rfl, rfl, fun i hi => Function.update_of_ne hi _ _,
      fun i hi => Function.update_of_ne hi _ _, fun _ _ => ⟨rfl, rfl, rfl, rfl⟩⟩
  | clearApproach hpc | checkApproach hpc =>
    refine ⟨rfl, rfl, rfl, rfl, rfl, fun i hi => Function.update_of_ne hi _ _, fun _ _ => rfl,
      fun id hid => ⟨Function.update_of_ne (hne hid ?_) _ _, rfl, rfl, rfl⟩⟩
    rw [hpc]
    simp [Thread.ids]
  | @onTick i tick tickBuf compute hpc hlookup hneg hin htick =>
    refine ⟨rfl, rfl, rfl, rfl, rfl, fun i hi => Function.update_of_ne hi _ _, fun _ _ => rfl,
      fun id hid => ?_⟩
    have hi : id ≠ i := by
      rintro rfl
      have hmem : tick ∈ (w.threads c).tickBuf := by rw [hpc]; exact List.mem_cons_self
      obtain ⟨i, -, hi, hring⟩ := h.traffic.fetched c tick hmem
      rw [← hi] at hring
      exact hid (hlookup ▸ hring)
    exact ⟨Function.update_of_ne hi _ _, rfl, Function.update_of_ne hi _ _, rfl⟩
  | first hpc | second hpc =>
    refine ⟨rfl, rfl, rfl, rfl, rfl, fun i hi => Function.update_of_ne hi _ _, fun _ _ => rfl,
      fun id hid => ?_⟩
    have hi := hne hid (by rw [hpc]; exact List.mem_cons_self)
    exact ⟨Function.update_of_ne hi _ _, Function.update_of_ne hi _ _, rfl,
      Function.update_of_ne hi _ _⟩

/-- **A step of the thread of a stock is a step of the stock, or of none.** -/
theorem ThreadStep.moves (h : Inv p w) (hp : p.Valid) {c id : Int32}
    (hc : c ∈ channels p.kChannelCount) (hring : p.ring id = some c) (hs : ThreadStep p c w v) :
    ∃ new, v.decisions id = w.decisions id ++ new ∧
      Trace.Stutter (ComputeThread.Step b p.model) (w.compute c id) new (v.compute c id) := by
  have hrange : id ∈ p.range c := (hp.mem_range hc).2 hring
  have hw := h.within c
  -- the stock is not touched, and is in the same phase
  have stay : ∀ {t : Thread b}, v.threads c = t → t.phase id = (w.threads c).phase id →
      v.computes id = w.computes id → v.caches id = w.caches id →
      v.decisions id = w.decisions id → ∃ new, v.decisions id = w.decisions id ++ new ∧
        Trace.Stutter (ComputeThread.Step b p.model) (w.compute c id) new (v.compute c id) := by
    intro t hthread hphase hcompute hcache hdecisions
    refine ⟨[], by rw [hdecisions, List.append_nil], ?_⟩
    rw [compute, compute, hthread, hphase, hcompute, hcache]
    exact .stay
  -- it is the stock whose turn it is
  have move : ∀ {t : Thread b} (before after : ComputeThread.Phase) {new : List Decision},
      v.threads c = t → (w.threads c).phase id = before → t.phase id = after →
      v.decisions id = w.decisions id ++ new →
      ComputeThread.Step b p.model ⟨before, w.computes id, w.caches id⟩ new
        ⟨after, v.computes id, v.caches id⟩ →
      ∃ new, v.decisions id = w.decisions id ++ new ∧
        Trace.Stutter (ComputeThread.Step b p.model) (w.compute c id) new (v.compute c id) := by
    rintro t _ _ new hthread rfl rfl hdecisions hstep
    refine ⟨new, hdecisions, .step ?_⟩
    rw [compute, compute, hthread]
    exact hstep
  cases hs with
  | round hpc =>
    exact stay (Function.update_self _ _ _) (by simp [hpc, Thread.phase, hrange]) rfl rfl rfl
  | @clearApproach i ids hpc =>
    rw [hpc] at hw
    by_cases hi : id = i
    · subst hi
      have hnot : id ∉ ids := (List.nodup_cons.1 hw.nodup).1
      refine move .clear .drain (Function.update_self _ _ _)
        (by simp [hpc, Thread.phase]) (by simp [Thread.phase, hnot]) (List.append_nil _).symm ?_
      simp only [setThread, setCompute, Function.update_self]
      exact .clear
    · exact stay (Function.update_self _ _ _) (by simp [hpc, Thread.phase, hi])
        (Function.update_of_ne hi _ _) rfl rfl
  | cleared hpc | fetchSomeTicks hpc _ | drop hpc _ | again hpc | done hpc | leaveOuter _ _ hpc
  | leaveInner _ _ hpc =>
    exact stay (Function.update_self _ _ _) (by simp [hpc, Thread.phase]) rfl rfl rfl
  | @onTick i tick tickBuf compute hpc _ _ _ htick =>
    by_cases hi : id = i
    · subst hi
      refine move .drain .drain (Function.update_self _ _ _)
        (by simp [hpc, Thread.phase]) rfl (List.append_nil _).symm ?_
      simp only [setThread, setCompute, Function.update_self]
      exact .tick tick htick
    · exact stay (Function.update_self _ _ _) (by simp [hpc, Thread.phase])
        (Function.update_of_ne hi _ _) rfl rfl
  | wake hpc =>
    exact stay (Function.update_self _ _ _) (by simp [hpc, Thread.phase, hrange]) rfl rfl rfl
  | @checkApproach i ids approachStockIds hpc =>
    rw [hpc] at hw
    by_cases hi : id = i
    · subst hi
      obtain ⟨-, hids, hdisjoint⟩ := List.nodup_append.1 hw.nodup
      have hnot : id ∉ ids := (List.nodup_cons.1 hids).1
      have hfound : id ∉ approachStockIds := fun hmem => hdisjoint _ hmem _ List.mem_cons_self rfl
      refine move .drain (if (w.computes id).checkApproach.2 then .approach else .clear)
        (Function.update_self _ _ _)
        (by simp [hpc, Thread.phase]) ?_ (List.append_nil _).symm ?_
      · split_ifs <;> simp [Thread.phase, hnot, hfound]
      · simp only [setThread, setCompute, Function.update_self]
        exact .check
    · refine stay (Function.update_self _ _ _) ?_ (Function.update_of_ne hi _ _) rfl rfl
      split_ifs <;> simp [hpc, Thread.phase, hi]
  | @select approachStockIds kept hpc hselect =>
    have hsub := (hp.rearranges.subperm hselect).subset
    by_cases hkept : id ∈ kept
    · exact stay (Function.update_self _ _ _) (by simp [hpc, Thread.phase, hkept, hsub hkept]) rfl
        rfl rfl
    · by_cases hfound : id ∈ approachStockIds
      · exact move .approach .clear (Function.update_self _ _ _)
          (by simp [hpc, Thread.phase, hfound]) (by simp [Thread.phase, hkept])
          (List.append_nil _).symm .skip
      · exact stay (Function.update_self _ _ _) (by simp [hpc, Thread.phase, hkept, hfound]) rfl
          rfl rfl
  | @skip i ids hpc _ =>
    rw [hpc] at hw
    by_cases hi : id = i
    · subst hi
      have hnot : id ∉ ids := (List.nodup_cons.1 hw.nodup).1
      exact move .approach .clear (Function.update_self _ _ _)
        (by simp [hpc, Thread.phase]) (by simp [Thread.phase, hnot]) (List.append_nil _).symm .skip
    · exact stay (Function.update_self _ _ _) (by simp [hpc, Thread.phase, hi]) rfl rfl rfl
  | @first i ids r hpc happroach hstep =>
    rw [hpc] at hw
    by_cases hi : id = i
    · subst hi
      have hnot : id ∉ ids := (List.nodup_cons.1 hw.nodup).1
      refine move .approach (if r.1.firstCompute then .second else .clear)
        (Function.update_self _ _ _) (by simp [hpc, Thread.phase]) ?_
        (Function.update_self _ _ _) ?_
      · split_ifs <;> simp [Thread.phase, hnot]
      · simp only [setThread, pushDecision, Function.update_self]
        exact .first happroach hstep
    · refine stay (Function.update_self _ _ _) ?_ (Function.update_of_ne hi _ _)
        (Function.update_of_ne hi _ _) (Function.update_of_ne hi _ _)
      split_ifs <;> simp [hpc, Thread.phase, hi]
  | @second i ids r hpc hstep =>
    rw [hpc] at hw
    by_cases hi : id = i
    · subst hi
      have hnot : id ∉ ids := (List.nodup_cons.1 hw.nodup).1
      refine move .second .clear (Function.update_self _ _ _)
        (by simp [hpc, Thread.phase]) (by simp [Thread.phase, hnot]) (Function.update_self _ _ _) ?_
      simp only [setThread, pushDecision, Function.update_self]
      exact .second hstep
    · exact stay (Function.update_self _ _ _) (by simp [hpc, Thread.phase, hi])
        (Function.update_of_ne hi _ _) (Function.update_of_ne hi _ _) (Function.update_of_ne hi _ _)

omit [FactorScalar R] in
/-- A step of `handleTick` touches what the tick threads own. -/
theorem TickStep.frame (hs : TickStep p w v) : v.main = w.main ∧ v.threads = w.threads ∧
    v.computes = w.computes ∧ v.caches = w.caches ∧ v.handled = w.handled ∧
    v.decisions = w.decisions := by
  cases hs <;> exact ⟨rfl, rfl, rfl, rfl, rfl, rfl⟩

/-- **A step of `handleTick` is a step of the stock, or of none**, whatever its compute
    thread does. -/
theorem TickStep.moves (hs : TickStep p w v) (id : Int32) :
    ∃ es, v.effects id = w.effects id ++ es ∧
      ∀ (t : ComputeThread R) (ds : List Decision), t.cache = w.caches id →
        Trace.Stutter (System.Step b p.model) ⟨w.states id, w.checking id, t, ds⟩ es
          ⟨v.states id, v.checking id, t, ds⟩ := by
  have stay : v.effects id = w.effects id → v.states id = w.states id →
      v.checking id = w.checking id → ∃ es, v.effects id = w.effects id ++ es ∧
        ∀ (t : ComputeThread R) (ds : List Decision), t.cache = w.caches id →
          Trace.Stutter (System.Step b p.model) ⟨w.states id, w.checking id, t, ds⟩ es
            ⟨v.states id, v.checking id, t, ds⟩ := by
    intro heffects hstates hchecking
    refine ⟨[], by rw [heffects, List.append_nil], fun t ds _ => ?_⟩
    rw [hstates, hchecking]
    exact .stay
  cases hs with
  | @tick i c tick check reject _ _ _ _ _ hnone hlimit _ =>
    by_cases hi : id = i
    · subst hi
      refine ⟨_, Function.update_self _ _ _, fun t ds _ => .step ?_⟩
      simp only [emit, Function.update_self, hnone]
      exact .tick tick check hlimit
    · exact stay (Function.update_of_ne hi _ _) (Function.update_of_ne hi _ _) rfl
  | @check i timestamp tick _ _ _ _ hnone halive hlimit =>
    by_cases hi : id = i
    · subst hi
      refine ⟨[], (List.append_nil _).symm, fun t ds ht => .step ?_⟩
      simp only [setChecking, Function.update_self, hnone, ← ht]
      exact .check tick halive hlimit
    · exact stay rfl (Function.update_of_ne hi _ _) (Function.update_of_ne hi _ _)
  | @load i checking hlt _ hchecking =>
    by_cases hi : id = i
    · subst hi
      refine ⟨[], (List.append_nil _).symm, fun t ds ht => .step ?_⟩
      simp only [setChecking, Function.update_self, hchecking, ← ht]
      exact .load hlt
    · exact stay rfl rfl (Function.update_of_ne hi _ _)
  | @answer i c checking reject _ _ hchecking hloaded _ =>
    by_cases hi : id = i
    · subst hi
      refine ⟨_, Function.update_self _ _ _, fun t ds _ => .step ?_⟩
      simp only [emit, setChecking, Function.update_self, hchecking]
      exact .answer hloaded
    · exact stay (Function.update_of_ne hi _ _) (Function.update_of_ne hi _ _)
        (Function.update_of_ne hi _ _)

/-- The program so far, as the stock sees it. -/
structure Refines (p : Setup R) (c id : Int32) (w : Program b R) : Prop where
  statics : w.main = .statics → w.effects id = []
  /-- the compute is not started, and may be in any state of the stock -/
  waiting : ¬ w.main.Started id → (∀ s, System.Run b p.model
      ⟨w.states id, w.checking id, .init s, []⟩ (w.effects id)) ∧
    w.computes id = {} ∧ w.caches id = .init ∧ w.decisions id = []
  started : w.main.Started id → System.Run b p.model (w.view c id) (w.effects id)

theorem refines_init (p : Setup R) (c id : Int32) : Refines p c id (init p : Program b R) where
  statics _ := rfl
  waiting _ := ⟨fun s => .start ⟨_, s, rfl⟩, rfl, rfl, rfl⟩
  started h := absurd h not_false

omit [FactorScalar R] in
theorem TickStep.receives (hi : Inv p w) (hs : TickStep p w v) : w.main.Receives := by
  cases hs with
  | tick _ _ _ hmain | check _ hmain => exact hmain
  | load _ _ hchecking | answer _ _ _ hchecking => exact hi.receives hchecking

theorem Refines.tickStep {c id : Int32} (h : Refines p c id w) (hmain : w.main.Receives)
    (hs : TickStep p w v) : Refines p c id v := by
  obtain ⟨hm, hthreads, hcomputes, hcaches, -, hdecisions⟩ := hs.frame
  obtain ⟨es, heffects, hmoves⟩ := hs.moves id
  refine ⟨fun hn => absurd hmain (by simp [← hm, hn, Main.Receives]), fun hn => ?_, fun hn => ?_⟩
  · obtain ⟨hrun, hcompute, hcache, hdecision⟩ := h.waiting (hm ▸ hn)
    refine ⟨fun s => ?_, hcomputes ▸ hcompute, hcaches ▸ hcache, hdecisions ▸ hdecision⟩
    rw [heffects]
    exact (hrun s).stutter (hmoves _ _ hcache.symm)
  · rw [view, compute, hthreads, hcomputes, hcaches, hdecisions, heffects]
    exact (h.started (hm ▸ hn)).stutter (hmoves _ _ rfl)

/-- A thread that runs has been started, and so all computes have. -/
theorem ThreadStep.started (h : Inv p w) {c : Int32} (hs : ThreadStep p c w v) (id : Int32) :
    w.main.Started id := by
  have hidle : w.threads c ≠ .idle := by
    intro hidle
    cases hs <;> simp_all
  obtain ⟨n, hn, -⟩ := h.launched c hidle
  cases hm : w.main <;> simp_all [Main.launched, Main.Started]

theorem Refines.threadStep (hi : Inv p w) (hp : p.Valid) {c c' id : Int32}
    (h : Refines p c id w) (hc : c' ∈ channels p.kChannelCount) (hring : p.ring id = some c)
    (hs : ThreadStep p c' w v) : Refines p c id v := by
  have hframe := hs.frame hi hp hc
  have hstarted := hs.started hi id
  have hrun := h.started hstarted
  refine ⟨fun hn => ?_, fun hn => ?_, fun _ => ?_⟩
  · rw [← hframe.main, hn] at hstarted
    exact absurd hstarted not_false
  · exact absurd (hframe.main ▸ hstarted) hn
  · rw [hframe.effects, view, hframe.states, hframe.checking]
    by_cases hcc : c = c'
    · subst hcc
      obtain ⟨new, hdecisions, hmoves⟩ := hs.moves hi hp hc hring
      rw [hdecisions, ← List.append_nil (w.effects id)]
      exact hrun.stutter (System.stutter_compute hmoves)
    · have hne : p.ring id ≠ some c' := fun hr => hcc (Option.some.inj (hring.symm.trans hr))
      obtain ⟨hcompute, hcache, -, hdecisions⟩ := hframe.stocks id hne
      rw [compute, hframe.threads c hcc, hcompute, hcache, hdecisions]
      exact hrun

omit [FactorScalar R] in
theorem ofNat_eq_iff {stockCodes : List Int32} (hlen : stockCodes.length ≤ 65536) {id : Int32}
    (hid : InBounds stockCodes id) {i : ℕ} (hi : i < stockCodes.length) :
    id = .ofNat i ↔ id.toInt.toNat = i := by
  have hnat := MDD.toInt_ofNat (n := i) (by omega)
  constructor
  · rintro rfl
    omega
  · rintro rfl
    exact (MDD.ofNat_toNat hid.1).symm

/-- A step of the main thread that only concerns itself. -/
theorem Refines.setMain {c id : Int32} (h : Refines p c id w) {m : Main} (hm : m ≠ .statics)
    (hstarted : m.Started id ↔ w.main.Started id) : Refines p c id { w with main := m } :=
  ⟨fun hn => absurd hn hm, fun hn => h.waiting fun hs => hn (hstarted.2 hs),
    fun hn => h.started (hstarted.1 hn)⟩

omit [FactorScalar R] in
/-- The next thread to start is idle. -/
theorem Inv.idle_next (h : Inv p w) {n : ℕ} (hmain : w.main = .startThreads n) (hn : n < p.count) :
    w.threads (.ofNat n) = .idle := by
  by_contra hne
  obtain ⟨m, hm, heq⟩ := h.launched _ hne
  have hk := p.kChannelCount.toInt_lt
  have hcount : p.count < 2 ^ 31 := by rw [Setup.count]; omega
  simp only [hmain, Main.launched] at hm
  exact absurd (MDD.ofNat_injOn (by omega) (by omega) heq) (by omega)

theorem Refines.mainStep (hi : Inv p w) (hp : p.Valid) {c id : Int32} (h : Refines p c id w)
    (hid : InBounds p.stockCodes id) (hring : p.ring id = some c) (hs : MainStep p w v) :
    Refines p c id v := by
  have hlen := hp.length
  cases hs with
  | @handleStatic i stat hmain _ _ _ =>
    have hnil := h.statics hmain
    have hnone := hi.checking (by simp [hmain, Main.Receives]) id
    have hwait : ¬ w.main.Started id := by rw [hmain]; exact not_false
    obtain ⟨-, hcompute, hcache, hdecision⟩ := h.waiting hwait
    refine ⟨fun _ => hnil, fun _ => ⟨fun s => ?_, hcompute, hcache, hdecision⟩,
      fun hn => absurd hn hwait⟩
    simp only [hnone, hnil]
    exact .start ⟨_, s, rfl⟩
  | startReceive hmain => exact h.setMain (by simp) (by simp [hmain, Main.Started])
  | @startCompute i hmain hlt =>
    by_cases hii : id = .ofNat i
    · have hwait : ¬ w.main.Started id := by
        rw [hmain, Main.Started, (ofNat_eq_iff hlen hid hlt).1 hii]
        exact lt_irrefl i
      obtain ⟨hrun, hcompute, hcache, hdecision⟩ := h.waiting hwait
      have hidle : w.threads c = .idle := by
        by_contra hne
        obtain ⟨n, hn, -⟩ := hi.launched c hne
        rw [hmain] at hn
        exact absurd hn (Nat.not_lt_zero n)
      refine ⟨fun hn => by simp at hn, fun hn => ?_, fun _ => ?_⟩
      · refine absurd ?_ hn
        simp only [Main.Started, (ofNat_eq_iff hlen hid hlt).1 hii]
        exact Nat.lt_succ_self i
      · subst hii
        simp only [view, compute, setCompute, Function.update_self, hidle, hcache, hcompute,
          hdecision]
        exact hrun (w.states (.ofNat i))
    · have hne : id.toInt.toNat ≠ i := fun he => hii ((ofNat_eq_iff hlen hid hlt).2 he)
      have hstarted : (Main.startComputes (i + 1)).Started id ↔ w.main.Started id := by
        rw [hmain, Main.Started, Main.Started]
        omega
      have hcompute : (w.setCompute (.ofNat i)
          ((w.computes (.ofNat i)).start (w.states (.ofNat i)))).computes id = w.computes id :=
        Function.update_of_ne hii _ _
      refine ⟨fun hn => by simp at hn, fun hn => ?_, fun hn => ?_⟩
      · obtain ⟨hrun, hcomp, hrest⟩ := h.waiting fun hs => hn (hstarted.2 hs)
        exact ⟨hrun, hcompute.trans hcomp, hrest⟩
      · have hrun := h.started (hstarted.1 hn)
        rw [view, compute] at hrun ⊢
        rw [hcompute]
        exact hrun
  | computesStarted hmain =>
    refine h.setMain (by simp) ?_
    obtain ⟨h0, hlt⟩ := hid
    simp only [hmain, Main.Started, true_iff]
    omega
  | @startThread n hmain hn =>
    have hs : w.main.Started id := by rw [hmain]; trivial
    refine ⟨fun hn => by simp at hn, fun hn => absurd trivial hn, fun _ => ?_⟩
    have hrun := h.started hs
    rw [view, compute] at hrun ⊢
    by_cases hc : c = .ofNat n
    · have hidle := hi.idle_next hmain hn
      rw [← hc] at hidle
      simp only [hidle] at hrun
      simp only [setThread, ← hc, Function.update_self]
      exact hrun
    · simp only [setThread, Function.update_of_ne hc]
      exact hrun
  | started hmain | stop hmain _ | join hmain _ _ | joined hmain | computesStopped hmain =>
    exact h.setMain (by simp) (by simp [hmain, Main.Started])
  | @stopCompute i hmain hlt =>
    have hs : w.main.Started id := by rw [hmain]; trivial
    have hrun := h.started hs
    refine ⟨fun hn => by simp at hn, fun hn => absurd trivial hn, fun _ => ?_⟩
    by_cases hii : id = .ofNat i
    · obtain ⟨n, hn, rfl⟩ :=
        List.mem_map.1 ((MDD.tickRing_eq_some_iff hp.count (by omega)).1 hring).1
      obtain ⟨outer, hended⟩ := hi.ended n (by rw [hmain]; exact List.mem_range.1 hn)
      have hphase : (w.threads (.ofNat n)).phase id = .clear ∨
          (w.threads (.ofNat n)).phase id = .drain := by
        rw [hended, Thread.phase]
        cases outer
        · exact .inr rfl
        · exact .inl rfl
      subst hii
      have hstop := hrun.stutter (System.stutter_compute (.step (.stop hphase)))
      simp only [List.append_nil] at hstop
      simp only [view, compute, setCompute, Function.update_self]
      exact hstop
    · rw [view, compute] at hrun ⊢
      simp only [setCompute, Function.update_of_ne hii]
      exact hrun
  | @stopState i c' reject hmain hlt _ _ =>
    have hs : w.main.Started id := by rw [hmain]; trivial
    have hrun := h.started hs
    refine ⟨fun hn => by simp at hn, fun hn => absurd trivial hn, fun _ => ?_⟩
    by_cases hii : id = .ofNat i
    · subst hii
      have hnone := hi.checking (by simp [hmain, Main.Receives]) (.ofNat i)
      rw [view, hnone] at hrun
      simp only [view, emit, Function.update_self, hnone]
      exact hrun.step .stop
    · rw [view, compute] at hrun ⊢
      simp only [emit, Function.update_of_ne hii]
      exact hrun

theorem Refines.step (hi : Inv p w) (hp : p.Valid) {c id : Int32} (h : Refines p c id w)
    (hid : InBounds p.stockCodes id) (hring : p.ring id = some c) (hs : Step p w v) :
    Refines p c id v := by
  cases hs with
  | main hs => exact h.mainStep hi hp hid hring hs
  | tick hs => exact h.tickStep (hs.receives hi) hs
  | thread hc hs => exact h.threadStep hi hp hc hring hs

omit [FactorScalar R] in
/-- Every stock has a ring. -/
theorem Setup.Valid.exists_ring (hp : p.Valid) {id : Int32} (hid : InBounds p.stockCodes id) :
    ∃ c, p.ring id = some c := by
  have hlen := hp.length
  obtain ⟨h0, hlt⟩ := hid
  have hmem : id ∈ (List.range p.stockCodes.length).map Int32.ofNat :=
    List.mem_map.2 ⟨id.toInt.toNat, List.mem_range.2 (by omega), MDD.ofNat_toNat h0⟩
  rw [← MDD.ranges_eq hp.count (by omega)] at hmem
  obtain ⟨c, hc, hrange⟩ := List.mem_flatMap.1 hmem
  exact ⟨c, (MDD.tickRing_eq_some_iff hp.count (by omega)).2 ⟨hc, hrange⟩⟩

theorem Reachable.refines (hp : p.Valid) (hw : Reachable p w) {c id : Int32}
    (hid : InBounds p.stockCodes id) (hring : p.ring id = some c) : Refines p c id w := by
  induction hw with
  | init => exact refines_init p c id
  | step hw hs ih => exact ih.step (hw.inv hp) hp hid hring hs

/-- **Every run of the program is a run of each stock.**  Whatever the order of the steps
    of all threads, a stock that is started, with its slice of the compute thread of its
    channel, is in a state that its two threads alone reach with the same effects. -/
theorem program_refines (hp : p.Valid) (hw : Reachable p w) {id : Int32}
    (hid : InBounds p.stockCodes id) (hstarted : w.main.Started id) :
    ∃ c, p.ring id = some c ∧ System.Run b p.model (w.view c id) (w.effects id) := by
  obtain ⟨c, hring⟩ := hp.exists_ring hid
  exact ⟨c, hring, (hw.refines hp hid hring).started hstarted⟩

/-- Two stocks, one channel, and a selection that compares ids in place. -/
def twoStocks : Setup ℚ where
  kChannelCount := 1
  stockCodes := [600000, 601318]
  model _ := true
  nth_element ids := InPlace.exchangeSelection ids.length 2

theorem valid_twoStocks : twoStocks.Valid where
  count := by decide
  sixDigits := List.forall_mem_cons.2 ⟨by decide, List.forall_mem_singleton.2 (by decide)⟩
  length := by decide
  rearranges amount ids kept hselect hlen := by
    obtain ⟨σ, hσ⟩ := ApproachSelect.exists_run_exchangeSelection amount ids
    obtain ⟨m', hrun, hcells⟩ := hσ (ApproachSelect.memory ids)
    have hkept := ApproachSelect.select_of_run (τ := σ) hlen hrun hcells
    obtain rfl := Option.some.inj (hkept.symm.trans hselect)
    exact ⟨_, ApproachSelect.keptBy_append σ⟩

/-- Ticks of the first stock: a trade of the call auction, a sell order near the limit, and
    a trade near the limit. -/
def nearLimitTicks : List L2.Tick :=
  [⟨600000, 92500000, 1000, 50, 3, 4⟩, ⟨600000, 92600000, 1095, 300, 0, 7⟩,
    ⟨600000, 93000000, 1090, 100, 5, 6⟩]

/-- A run in which these ticks have reached their compute, which has then decided to buy on
    two slot times. -/
theorem exists_decided : ∃ w : Program (.replay .SH) ℚ, Reachable twoStocks w ∧
    w.main = .startThreads 1 ∧ w.overflowed 0 = false ∧ w.handled 0 = nearLimitTicks ∧
    ((w.computes 0).alive ∧ (w.computes 0).futureTimestamp = 93000200 ∧
      (w.computes 0).preClosePrice = 1000 ∧ (w.computes 0).upperLimitPrice = 1100 ∧
      (w.computes 0).upSellOrders.toList = [(7, ⟨1095, 300⟩)]) ∧
    w.states 0 = ⟨600000, 1100, 1000, true, 0, 0, 0, 0, 0⟩ ∧ w.checking 0 = none ∧
    w.rings 0 = [] ∧
    w.decisions 0 = [⟨93000000, true⟩, ⟨93000100, true⟩] ∧
    (w.caches 0).checkWantBuyAtTimestamp 93000120 = .WantBuy := by
  have hzero : InBounds twoStocks.stockCodes 0 := ⟨by decide, by decide⟩
  have hchannel : (0 : Int32) ∈ channels twoStocks.kChannelCount := by decide
  have hstatic := Reachable.init.step (p := twoStocks) (b := .replay .SH)
    (.main (.handleStatic ⟨600000, .SH, 1000, 1100, 20250722⟩ rfl rfl (by decide) hzero))
  have hcomputes := ((hstatic.step (.main (.startReceive rfl))).step
    (.main (.startCompute (i := 0) rfl (by decide)))).step
    (.main (.startCompute (i := 1) rfl (by decide)))
  have hthread := (hcomputes.step (.main (.computesStarted rfl))).step
    (.main (.startThread (c := 0) rfl (by decide)))
  have hauction := hthread.step (.tick (@TickStep.tick (.replay .SH) _ _ _ 0 0
    (⟨600000, 92500000, 1000, 50, 3, 4⟩ : L2.Tick) (fun _ => .NotSure) false trivial rfl
    (by decide) hzero (by decide) rfl (fun _ => rfl) (.inr (by decide))))
  have horder := hauction.step (.tick (@TickStep.tick (.replay .SH) _ _ _ 0 0
    (⟨600000, 92600000, 1095, 300, 0, 7⟩ : L2.Tick) (fun _ => .NotSure) false trivial rfl
    (by decide) hzero (by decide) rfl (fun _ => rfl) (.inr (by decide))))
  have htrade := horder.step (.tick (@TickStep.tick (.replay .SH) _ _ _ 0 0
    (⟨600000, 93000000, 1090, 100, 5, 6⟩ : L2.Tick) (fun _ => .NotSure) false trivial rfl
    (by decide) hzero (by decide) rfl (fun _ => rfl) (.inr (by decide))))
  have hclear := ((htrade.step (.thread hchannel (.round rfl))).step
    (.thread hchannel (.clearApproach rfl))).step (.thread hchannel (.clearApproach rfl))
  have hfetch := (hclear.step (.thread hchannel (.cleared rfl))).step
    (.thread hchannel (.fetchSomeTicks (n := 3) rfl (by decide)))
  have hticks := ((hfetch.step (.thread hchannel (.onTick rfl rfl (by decide) hzero rfl))).step
    (.thread hchannel (.onTick rfl rfl (by decide) hzero rfl))).step
    (.thread hchannel (.onTick rfl rfl (by decide) hzero rfl))
  have hcheck := ((hticks.step (.thread hchannel (.wake rfl))).step
    (.thread hchannel (.checkApproach rfl))).step (.thread hchannel (.checkApproach rfl))
  have hselect := hcheck.step (.thread hchannel (@ThreadStep.select _ _ _ _ _ _ [0] [0] rfl rfl))
  have hfirst := hselect.step (.thread hchannel (.first rfl rfl rfl))
  exact ⟨_, hfirst.step (.thread hchannel (.second rfl rfl)), rfl, rfl, rfl,
    ⟨rfl, rfl, rfl, rfl, by decide +kernel⟩, rfl, rfl, rfl, rfl, by decide +kernel⟩

theorem program_refines_two : ∃ w : Program (.replay .SH) ℚ, Reachable twoStocks w ∧
    w.handled 0 = nearLimitTicks ∧ w.decisions 0 = [⟨93000000, true⟩, ⟨93000100, true⟩] ∧
    ∃ c, twoStocks.ring 0 = some c ∧
      System.Run (.replay .SH) twoStocks.model (w.view c 0) (w.effects 0) := by
  obtain ⟨w, hw, hmain, -, hhandled, -, -, -, -, hdecisions, -⟩ := exists_decided
  exact ⟨w, hw, hhandled, hdecisions, program_refines valid_twoStocks hw
    ⟨by decide, by decide⟩ (by rw [hmain]; trivial)⟩

end Program

end Mdd2
