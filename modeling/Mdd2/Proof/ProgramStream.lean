/-
  The ticks of the whole program, from the stocks to the computes.

  Stocks of a channel share its ring, and the compute thread its buffer.

  * `program_fifo`: what a compute was given, with what the buffer and the ring still hold
    for it, is what its stock pushed, in order, unless the ring rejected a tick;
  * `Step.queue`: each ring is a bounded queue, as the ring of two threads is
    (`SpscRing.ring_queue`), and `Reachable.producer`: two threads do not push at a time;
  * `onTick_settled`: what ticks maintain does not depend on the decisions;
  * `program_stream`: a compute is in the state that the ticks its stock pushed lead to when
    it is run alone, but for the state of its decisions.
-/
import Mdd2.Lib.BoundedQueue
import Mdd2.Proof.Program

namespace Mdd2

open MDD (InBounds channels)

/-! ## What ticks maintain -/

namespace StockCompute
variable {R : Type}

/-- The compute without the state of its decisions. -/
def settled (c : StockCompute R) : StockCompute R :=
  { c with approachingLimitUp := false, bState := {}, futureTimestamp := 0, firstCompute := false }

variable [FactorScalar R]

theorem onTradeOf_settled (c : StockCompute R) (no : ℤ) (openCall : Bool)
    (timestamp price quantity : ℤ) :
    (c.settled.onTradeOf no openCall timestamp price quantity).map settled =
      (c.onTradeOf no openCall timestamp price quantity).map settled := by
  simp only [onTradeOf, addRealTrade]
  cases openCall with
  | true => rfl
  | false =>
    simp only [Bool.false_eq_true, if_false]
    split_ifs <;> simp only [settled] <;>
      cases c.fState.addRealTrade timestamp price quantity <;> rfl

omit [FactorScalar R] in
theorem settled_ite {P : Prop} [Decidable P] (c d : StockCompute R) :
    (if P then c else d).settled = if P then c.settled else d.settled := apply_ite settled P c d

omit [FactorScalar R] in
theorem onOrder_settled (b : Build) (c : StockCompute R) (tick : b.Tick) :
    (c.settled.onOrder b tick).settled = (c.onOrder b tick).settled := by
  rcases b with _ | ⟨_ | _⟩ | _
  · simp only [onOrder, onOrderReplay, settled_ite]; rfl
  · simp only [onOrder, onOrderNeSh, settled_ite]; rfl
  · simp only [onOrder, onOrderNeSz, settled_ite]; rfl
  · rfl

omit [FactorScalar R] in
theorem onCancel_settled (b : Build) (c : StockCompute R) (tick : b.Tick) :
    (c.settled.onCancel b tick).settled = (c.onCancel b tick).settled := by
  rcases b with _ | ⟨_ | _⟩ | _
  · simp only [onCancel, onCancelReplay, settled_ite]; rfl
  · simp only [onCancel, onCancelNeSh, settled_ite]; rfl
  · simp only [onCancel, onCancelNeSz, settled_ite]; rfl
  · rfl

theorem onTrade_settled (b : Build) (c : StockCompute R) (tick : b.Tick) :
    (c.settled.onTrade b tick).map settled = (c.onTrade b tick).map settled := by
  rcases b with _ | ⟨_ | _⟩ | _
  · simp only [onTrade, onTradeReplay, onTradeOf_settled]
  · simp only [onTrade, onTradeNeSh, onTradeOf_settled]
  · simp only [onTrade, onTradeNeSz, onTradeOf_settled]
  · rfl

/-- **Ticks do not see the state of the decisions.** -/
theorem onTick_settled {b : Build} (c : StockCompute R) (tick : b.Tick) :
    (c.settled.onTick b tick).map settled = (c.onTick b tick).map settled := by
  have hcalls : c.settled.calls b tick = c.calls b tick := rfl
  rw [onTick, onTick, hcalls]
  cases c.calls b tick with
  | none => rfl
  | some call =>
    cases call with
    | logLimitUp _ _ => rfl
    | onOrder => exact congrArg some (onOrder_settled b c tick)
    | onCancel => exact congrArg some (onCancel_settled b c tick)
    | onTrade => exact onTrade_settled b c tick

/-- Computes that ticks do not tell apart stay so. -/
theorem onTick_settled_congr {b : Build} {c d c' : StockCompute R} {tick : b.Tick}
    (h : c.settled = d.settled) (hc : c.onTick b tick = some c') :
    ∃ d', d.onTick b tick = some d' ∧ c'.settled = d'.settled := by
  have heq := onTick_settled (b := b) d tick
  rw [← h, onTick_settled, hc, Option.map_some] at heq
  obtain ⟨d', hd, hsettled⟩ := Option.map_eq_some_iff.1 heq.symm
  exact ⟨d', hd, hsettled.symm⟩

theorem runTicks_concat {b : Build} {c d e : StockCompute R} {ticks : List b.Tick} {tick : b.Tick}
    (h : c.runTicks b ticks = some d) (htick : d.onTick b tick = some e) :
    c.runTicks b (ticks ++ [tick]) = some e := by
  induction ticks generalizing c with
  | nil =>
    obtain rfl := Option.some.inj h
    simp [runTicks, htick]
  | cons t ticks ih =>
    obtain ⟨c', hc', hrest⟩ := Option.bind_eq_some_iff.1 h
    simp only [List.cons_append, runTicks, hc', Option.bind_eq_bind, Option.bind_some]
    exact ih hrest

end StockCompute

namespace Program
variable {b : Build} {R : Type} {p : Setup R} {w v : Program b R} {c id : Int32}

/-! ## Queues -/

/-- The ticks that are on their way to the compute of a stock. -/
def underWay (p : Setup R) (c id : Int32) (w : Program b R) : List b.Tick :=
  ((w.threads c).tickBuf ++ w.rings c).filter fun tick => p.idOf b tick = id

/-- The ring and the buffer of the channel, as a stock sees them. -/
structure Fifo (p : Setup R) (c id : Int32) (w : Program b R) : Prop where
  sublist : (w.handled id ++ w.underWay p c id).Sublist (pushed (w.effects id))
  exact : w.overflowed c = false → w.handled id ++ w.underWay p c id = pushed (w.effects id)

theorem fifo_init (p : Setup R) (c id : Int32) : Fifo p c id (init p : Program b R) :=
  ⟨List.Sublist.refl _, fun _ => rfl⟩

/-- A step that pushes nothing, and passes ticks on in order. -/
theorem Fifo.pass (h : Fifo p c id w)
    (hticks : v.handled id ++ v.underWay p c id = w.handled id ++ w.underWay p c id)
    (heffects : v.effects id = w.effects id) (hoverflowed : v.overflowed c = w.overflowed c) :
    Fifo p c id v := by
  constructor
  · rw [hticks, heffects]; exact h.sublist
  · rw [hticks, heffects, hoverflowed]; exact h.exact

/-- What a call on a stock pushes is dispatched to that stock. -/
theorem Inv.idOf_pushed (h : Inv p w) (hp : p.Valid) (hid : InBounds p.stockCodes id)
    {tick : Option b.Tick} {r : StockState × List (Effect b)}
    (hr : MDD.Handles (w.states id) tick r) (htick : ∀ t, tick = some t → p.idOf b t = id) :
    ∀ t ∈ pushed r.2, p.idOf b t = id := by
  intro t ht
  obtain ⟨halive, hpush⟩ := hr.pushed t ht
  rcases hpush with htick' | ⟨timestamp, rfl⟩
  · exact htick t htick'
  · have hmem : p.stockCodes.getD id.toInt.toNat 0 ∈ p.stockCodes := by
      obtain ⟨h0, hlt⟩ := hid
      rw [List.getD_eq_getElem _ _ (by omega)]
      exact List.getElem_mem _
    have hcode : (w.states id).stockCode = p.stockCodes.getD id.toInt.toNat 0 :=
      h.traffic.stockCode id hid
    rw [Setup.idOf, hcode, StockState.tickStockCode_endSign (hp.sixDigits _ hmem)]
    exact h.traffic.alive id hid halive

/-- A call on a stock ends. -/
theorem Fifo.emit (h : Fifo p c id w) (hring : p.ring id = some c) {i c' : Int32}
    (hring' : p.ring i = some c') {r : StockState × List (Effect b)} {reject : Bool}
    (hr : ∀ t ∈ pushed r.2, p.idOf b t = i) : Fifo p c id (w.emit i c' r reject) := by
  by_cases hi : id = i
  · subst hi
    obtain rfl : c = c' := Option.some.inj (hring.symm.trans hring')
    have hall : (pushed r.2).filter (fun tick => p.idOf b tick = id) = pushed r.2 :=
      List.filter_eq_self.2 fun t ht => decide_eq_true (hr t ht)
    have hunder : (w.emit id c r reject).underWay p c id =
        w.underWay p c id ++ if reject then [] else pushed r.2 := by
      simp only [underWay, Program.emit, Function.update_self, ← List.append_assoc,
        List.filter_append]
      split_ifs <;> simp [hall]
    constructor
    · rw [hunder]
      simp only [Program.emit, Function.update_self, pushed_append, ← List.append_assoc]
      refine h.sublist.append ?_
      split_ifs
      · exact List.nil_sublist _
      · exact List.Sublist.refl _
    · rw [hunder]
      simp only [Program.emit, Function.update_self, pushed_append, ← List.append_assoc,
        Bool.or_eq_false_iff]
      rintro ⟨hover, rfl⟩
      rw [h.exact hover]
      simp
  · have heffects : (w.emit i c' r reject).effects id = w.effects id :=
      Function.update_of_ne hi _ _
    have hnone : (if reject then [] else pushed r.2).filter
        (fun tick => p.idOf b tick = id) = [] := by
      refine List.filter_eq_nil_iff.2 fun t ht => ?_
      split_ifs at ht
      · exact absurd ht List.not_mem_nil
      · rw [hr t ht]
        simpa using Ne.symm hi
    by_cases hc : c = c'
    · subst hc
      have hunder : (w.emit i c r reject).underWay p c id = w.underWay p c id := by
        simp only [underWay, Program.emit, Function.update_self, ← List.append_assoc,
          List.filter_append]
        rw [hnone, List.append_nil]
      constructor
      · rw [hunder, heffects]
        exact h.sublist
      · rw [hunder, heffects]
        simp only [Program.emit, Function.update_self, Bool.or_eq_false_iff]
        exact fun hover => h.exact hover.1
    · refine h.pass ?_ heffects (Function.update_of_ne hc _ _)
      simp only [underWay, Program.emit, Function.update_of_ne hc]

/-- The thread of another channel passes no ticks to the stock. -/
theorem Fifo.frame (h : Fifo p c id w) {c' : Int32} (hf : Frame p c' w v) (hc : c ≠ c')
    (hring : p.ring id = some c) : Fifo p c id v := by
  have hne : p.ring id ≠ some c' := fun hr => hc (Option.some.inj (hring.symm.trans hr))
  refine h.pass ?_ (by rw [hf.effects]) (by rw [hf.overflowed])
  rw [underWay, underWay, hf.threads c hc, hf.rings c hc, (hf.stocks id hne).2.2.1]

variable [FactorScalar R]

theorem Fifo.threadStep (h : Fifo p c id w) (hid : InBounds p.stockCodes id)
    (hs : ThreadStep p c w v) : Fifo p c id v := by
  -- the ticks stay where they are
  have stay : ∀ {t : Thread b}, v.threads c = t → t.tickBuf = (w.threads c).tickBuf →
      v.rings c = w.rings c → v.handled id = w.handled id → v.effects id = w.effects id →
      v.overflowed c = w.overflowed c → Fifo p c id v := by
    intro t hthread hbuf hrings hhandled heffects hover
    refine h.pass ?_ heffects hover
    rw [underWay, underWay, hthread, hbuf, hrings, hhandled]
  cases hs with
  | round hpc | clearApproach hpc | cleared hpc | again hpc | wake hpc | checkApproach hpc
  | select hpc _ | skip hpc _ | second hpc _ | done hpc | leaveOuter _ _ hpc
  | leaveInner _ _ hpc =>
    exact stay (Function.update_self _ _ _) (by rw [hpc]; rfl) rfl rfl rfl rfl
  | first hpc =>
    refine stay (Function.update_self _ _ _) ?_ rfl rfl rfl rfl
    rw [hpc]
    split_ifs <;> rfl
  | @fetchSomeTicks n hpc _ =>
    refine h.pass ?_ rfl rfl
    simp only [underWay, setThread, Function.update_self, hpc, Thread.tickBuf,
      List.take_append_drop, List.nil_append]
  | @drop tick tickBuf hpc hdrop =>
    have hne : p.idOf b tick ≠ id := by
      rintro rfl
      rw [hdrop] at hid
      exact absurd hid.1 (by decide)
    refine h.pass ?_ rfl rfl
    simp [underWay, setThread, hpc, Thread.tickBuf, hne]
  | @onTick i tick tickBuf compute hpc hlookup _ _ _ =>
    refine h.pass ?_ rfl rfl
    by_cases hi : id = i
    · subst hi
      simp [underWay, setThread, setCompute, hpc, Thread.tickBuf, hlookup]
    · have hne : p.idOf b tick ≠ id := fun he => hi (he.symm.trans hlookup)
      simp [underWay, setThread, setCompute, hpc, Thread.tickBuf, hne, hi]

omit [FactorScalar R] in
theorem Fifo.tickStep (hi : Inv p w) (hp : p.Valid) (h : Fifo p c id w)
    (hring : p.ring id = some c) (hs : TickStep p w v) : Fifo p c id v := by
  cases hs with
  | tick tick check reject _ hlookup _ hin hring' _ _ _ =>
    refine h.emit hring hring'
      (hi.idOf_pushed hp hin (MDD.handles_onTick check tick) fun t ht => ?_)
    rw [← Option.some.inj ht, hlookup]
  | check | load => exact h.pass rfl rfl rfl
  | answer reject hin hring' _ _ _ =>
    exact (h.emit hring hring' (hi.idOf_pushed hp hin (handles_onIntent false _ _)
      fun t ht => absurd ht (by simp))).pass rfl rfl rfl

theorem Fifo.mainStep (hi : Inv p w) (hp : p.Valid) (h : Fifo p c id w)
    (hring : p.ring id = some c) (hs : MainStep p w v) : Fifo p c id v := by
  cases hs with
  | @startThread n hmain hn =>
    refine h.pass ?_ rfl rfl
    by_cases hc : c = .ofNat n
    · subst hc
      simp only [underWay, setThread, Function.update_self, hi.idle_next hmain hn, Thread.tickBuf]
    · simp only [underWay, setThread, Function.update_of_ne hc]
  | stopState reject _ hlt hring' _ =>
    exact (h.emit hring hring' (hi.idOf_pushed hp (inBounds_ofNat hp.length hlt)
      (MDD.handles_stop 0) fun t ht => absurd ht (by simp))).pass rfl rfl rfl
  | _ => exact h.pass rfl rfl rfl

theorem Fifo.step (hi : Inv p w) (hp : p.Valid) (h : Fifo p c id w)
    (hid : InBounds p.stockCodes id) (hring : p.ring id = some c) (hs : Step p w v) :
    Fifo p c id v := by
  cases hs with
  | main hs => exact h.mainStep hi hp hring hs
  | tick hs => exact h.tickStep hi hp hring hs
  | @thread c' hc' hs =>
    by_cases hc : c = c'
    · subst hc
      exact h.threadStep hid hs
    · exact h.frame (hs.frame hi hp hc') hc hring

theorem Reachable.fifo (hp : p.Valid) (hw : Reachable p w) (hid : InBounds p.stockCodes id)
    (hring : p.ring id = some c) : Fifo p c id w := by
  induction hw with
  | init => exact fifo_init p c id
  | step hw hs ih => exact ih.step (hw.inv hp) hp hid hring hs

/-- **The shared rings are queues for each stock.**  What a compute was given, followed by
    what the buffer and the ring of its channel hold for it, is what its stock pushed, in
    order; where the ring has rejected ticks, some are missing, and none is out of order. -/
theorem program_fifo (hp : p.Valid) (hw : Reachable p w) (hid : InBounds p.stockCodes id)
    (hring : p.ring id = some c) :
    (w.handled id ++ w.underWay p c id).Sublist (pushed (w.effects id)) ∧
      (w.overflowed c = false → w.handled id ++ w.underWay p c id = pushed (w.effects id)) := by
  have hfifo := hw.fifo hp hid hring
  exact ⟨hfifo.sublist, hfifo.exact⟩

theorem program_fifo_two : ∃ w : Program (.replay .SH) ℚ, Reachable twoStocks w ∧
    w.handled 0 = nearLimitTicks ∧
    (w.handled 0 ++ w.underWay twoStocks 0 0).Sublist (pushed (w.effects 0)) ∧
      (w.overflowed 0 = false →
        w.handled 0 ++ w.underWay twoStocks 0 0 = pushed (w.effects 0)) := by
  obtain ⟨w, hw, -, -, hhandled, -⟩ := exists_decided
  exact ⟨w, hw, hhandled,
    program_fifo valid_twoStocks hw ⟨by decide, by decide⟩ (by decide)⟩

/-! ## The rings -/

omit [FactorScalar R] in
theorem queue_emit {r : StockState × List (Effect b)} {reject : Bool} (hfits : w.Fits c r reject)
    (id i : Int32) : ∃ taken given, BoundedQueue.Step kRingSize (w.rings i) taken given
      ((w.emit id c r reject).rings i) := by
  by_cases hi : i = c
  · subst hi
    simp only [emit, Function.update_self]
    cases reject with
    | true => exact ⟨[], [], by simpa using BoundedQueue.Step.stay _⟩
    | false =>
      refine ⟨pushed r.2, [], .push _ _ ?_⟩
      rw [List.length_append]
      exact hfits.resolve_left Bool.false_ne_true
  · simp only [emit, Function.update_of_ne hi]
    exact ⟨[], [], .stay _⟩

/-- **Each ring is a bounded queue**: the calls of the tick threads and of the main thread
    push into it, and its compute thread takes what is at its head. -/
theorem Step.queue (hs : Step p w v) (i : Int32) :
    ∃ taken given, BoundedQueue.Step kRingSize (w.rings i) taken given (v.rings i) := by
  have hstay : ∃ taken given, BoundedQueue.Step kRingSize (w.rings i) taken given (w.rings i) :=
    ⟨[], [], .stay _⟩
  cases hs with
  | main hs =>
    cases hs with
    | @stopState k _ _ _ _ _ hfits => exact queue_emit hfits (.ofNat k) i
    | _ => exact hstay
  | tick hs =>
    cases hs with
    | @tick id _ _ _ _ _ _ _ _ _ _ _ hfits => exact queue_emit hfits id i
    | @answer id _ _ _ _ _ _ _ hfits => exact queue_emit hfits id i
    | check | load => exact hstay
  | @thread c _ hs =>
    cases hs with
    | @fetchSomeTicks n _ _ =>
      by_cases hi : i = c
      · subst hi
        simp only [Function.update_self]
        exact ⟨[], _, .pop _ n⟩
      · simp only [Function.update_of_ne hi]
        exact hstay
    | _ => exact hstay

theorem Reachable.queue (hw : Reachable p w) (i : Int32) :
    ∃ taken given, BoundedQueue.Run kRingSize taken given (w.rings i) := by
  induction hw with
  | init => exact ⟨[], [], .init⟩
  | step _ hs ih =>
    obtain ⟨taken, given, hrun⟩ := ih
    obtain ⟨_, _, hstep⟩ := hs.queue i
    exact ⟨_, _, hrun.step hstep⟩

/-- The main thread pushes only when no tick thread does. -/
theorem Reachable.producer (hp : p.Valid) (hw : Reachable p w) (htick : TickStep p w v)
    {u : Program b R} (hmain : MainStep p w u) : u.rings = w.rings := by
  have hreceives := htick.receives (hw.inv hp)
  cases hmain with
  | stopState _ hstop =>
    rw [hstop] at hreceives
    exact absurd hreceives (by simp [Main.Receives])
  | _ => rfl

/-! ## The state of a compute -/

/-- The compute is started, and not stopped by `MDD::stop`. -/
def Main.Computing (id : Int32) : Main → Prop
  | startComputes next => id.toInt.toNat < next
  | startThreads _ | run | stopThreads _ => True
  | _ => False

/-- The compute is where its ticks have led it, from a state of its stock. -/
def FollowsFrom (s : StockState) (id : Int32) (w : Program b R) : Prop :=
  ∃ d : StockCompute R, (StockCompute.start {} s).runTicks b (w.handled id) = some d ∧
    (w.computes id).settled = d.settled

/-- The compute is where its ticks have led it. -/
def Follows (id : Int32) (w : Program b R) : Prop :=
  ∃ (s : StockState) (d : StockCompute R),
    (StockCompute.start {} s).runTicks b (w.handled id) = some d ∧
      (w.computes id).settled = d.settled

/-- The compute waits, or is where its ticks have led it. -/
structure Follower (id : Int32) (w : Program b R) : Prop where
  waiting : ¬ w.main.Started id → w.handled id = [] ∧ w.computes id = {}
  computing : w.main.Computing id → Follows id w

theorem follower_init (p : Setup R) (id : Int32) : Follower id (init p : Program b R) :=
  ⟨fun _ => ⟨rfl, rfl⟩, fun h => absurd h not_false⟩

theorem FollowsFrom.congr {s : StockState} (h : FollowsFrom s id w)
    (hhandled : v.handled id = w.handled id)
    (hcomputes : (v.computes id).settled = (w.computes id).settled) : FollowsFrom s id v := by
  obtain ⟨d, hrun, hsettled⟩ := h
  exact ⟨d, by rw [hhandled]; exact hrun, hcomputes.trans hsettled⟩

theorem Follows.congr (h : Follows id w) (hhandled : v.handled id = w.handled id)
    (hcomputes : (v.computes id).settled = (w.computes id).settled) : Follows id v := by
  obtain ⟨s, h⟩ := h
  exact ⟨s, FollowsFrom.congr h hhandled hcomputes⟩

theorem Follower.congr (h : Follower id w) (hmain : v.main = w.main)
    (hhandled : v.handled id = w.handled id) (hcomputes : v.computes id = w.computes id) :
    Follower id v := by
  refine ⟨fun hn => ?_, fun hn => ?_⟩
  · rw [hhandled, hcomputes]
    exact h.waiting (hmain ▸ hn)
  · exact (h.computing (hmain ▸ hn)).congr hhandled (by rw [hcomputes])

/-- The thread of the stock: only `onTick` changes what the ticks maintain. -/
theorem FollowsFrom.threadStep {s : StockState} (hinv : (w.compute c id).Inv)
    (h : FollowsFrom s id w) (hs : ThreadStep p c w v) : FollowsFrom s id v := by
  cases hs with
  | round | cleared | fetchSomeTicks | drop | again | wake | select | skip | done | leaveOuter
  | leaveInner => exact h.congr rfl rfl
  | @clearApproach i ids hpc =>
    refine h.congr rfl ?_
    by_cases hi : id = i
    · subst hi
      simp only [setThread, setCompute, Function.update_self]
      rfl
    · exact congrArg StockCompute.settled (Function.update_of_ne hi _ _)
  | @checkApproach i ids approachStockIds hpc =>
    refine h.congr rfl ?_
    by_cases hi : id = i
    · subst hi
      simp only [setThread, setCompute, Function.update_self, StockCompute.checkApproach]
      split_ifs <;> rfl
    · exact congrArg StockCompute.settled (Function.update_of_ne hi _ _)
  | @onTick i tick tickBuf compute hpc hlookup hne hid htick =>
    by_cases hi : id = i
    · subst hi
      obtain ⟨d, hrun, hsettled⟩ := h
      obtain ⟨d', hd', hsettled'⟩ := StockCompute.onTick_settled_congr hsettled htick
      refine ⟨d', ?_, ?_⟩
      · simp only [Function.update_self]
        exact StockCompute.runTicks_concat hrun hd'
      · simpa only [setThread, setCompute, Function.update_self] using hsettled'
    · exact h.congr (Function.update_of_ne hi _ _)
        (congrArg StockCompute.settled (Function.update_of_ne hi _ _))
  | @first i ids r hpc _ hstep =>
    refine h.congr rfl ?_
    by_cases hi : id = i
    · subst hi
      have hphase : (w.compute c id).phase = .approach := by simp [compute, hpc, Thread.phase]
      obtain ⟨bState, wantBuy, -, heq⟩ := hinv.approachStep_eq (.inl hphase)
        (w.computes id).firstCompute p.model (w.caches id)
      obtain rfl := Option.some.inj (heq.symm.trans hstep)
      simp only [setThread, pushDecision, Function.update_self]
      rfl
    · exact congrArg StockCompute.settled (Function.update_of_ne hi _ _)
  | @second i ids r hpc hstep =>
    refine h.congr rfl ?_
    by_cases hi : id = i
    · subst hi
      have hphase : (w.compute c id).phase = .second := by simp [compute, hpc, Thread.phase]
      obtain ⟨bState, wantBuy, -, heq⟩ := hinv.approachStep_eq (.inr hphase) false p.model
        (w.caches id)
      obtain rfl := Option.some.inj (heq.symm.trans hstep)
      simp only [setThread, pushDecision, Function.update_self]
      rfl
    · exact congrArg StockCompute.settled (Function.update_of_ne hi _ _)

theorem Follows.threadStep (hinv : (w.compute c id).Inv) (h : Follows id w)
    (hs : ThreadStep p c w v) : Follows id v := by
  obtain ⟨s, h⟩ := h
  exact ⟨s, FollowsFrom.threadStep hinv h hs⟩

theorem Follower.mainStep (hp : p.Valid) (h : Follower id w) (hid : InBounds p.stockCodes id)
    (hs : MainStep p w v) : Follower id v := by
  have hlen := hp.length
  cases hs with
  | handleStatic stat hmain _ _ _ => exact h.congr rfl rfl rfl
  | startReceive hmain =>
    exact ⟨fun _ => h.waiting (by simp [hmain, Main.Started]),
      fun hn => absurd hn (Nat.not_lt_zero _)⟩
  | @startCompute i hmain hlt =>
    by_cases hii : id = .ofNat i
    · have hnat := (ofNat_eq_iff hlen hid hlt).1 hii
      have hwait : ¬ w.main.Started id := by
        rw [hmain, Main.Started, hnat]
        exact lt_irrefl i
      obtain ⟨hhandled, hcompute⟩ := h.waiting hwait
      refine ⟨fun hn => absurd (show id.toInt.toNat < i + 1 by omega) hn, fun _ => ?_⟩
      subst hii
      refine ⟨w.states (.ofNat i), StockCompute.start {} (w.states (.ofNat i)), ?_, ?_⟩
      · show StockCompute.runTicks b _ (w.handled (.ofNat i)) = _
        rw [hhandled]
        rfl
      · simp only [setCompute, Function.update_self, hcompute]
    · have hne : id.toInt.toNat ≠ i := fun he => hii ((ofNat_eq_iff hlen hid hlt).2 he)
      have hcompute := Function.update_of_ne hii
        ((w.computes (.ofNat i)).start (w.states (.ofNat i))) w.computes
      refine ⟨fun hn => ?_, fun hn => ?_⟩
      · obtain ⟨hhandled, hcomp⟩ := h.waiting fun hs => hn (by
          rw [hmain] at hs
          exact Nat.lt_succ_of_lt hs)
        exact ⟨hhandled, hcompute.trans hcomp⟩
      · have hlt' : id.toInt.toNat < i + 1 := hn
        refine (h.computing ?_).congr rfl (congrArg StockCompute.settled hcompute)
        rw [hmain]
        show id.toInt.toNat < i
        omega
  | computesStarted hmain =>
    obtain ⟨h0, hlt⟩ := hid
    refine ⟨fun hn => absurd trivial hn, fun _ => h.computing ?_⟩
    rw [hmain]
    show id.toInt.toNat < p.stockCodes.length
    omega
  | startThread hmain _ | started hmain | stop hmain _ | join hmain _ _ =>
    refine ⟨fun hn => absurd trivial hn, fun _ => (h.computing ?_).congr rfl rfl⟩
    rw [hmain]
    trivial
  | joined hmain | stopCompute hmain _ | computesStopped hmain | stopState _ hmain =>
    exact ⟨fun hn => absurd trivial hn, fun hn => absurd hn not_false⟩

theorem Follower.step (hi : Inv p w) (hp : p.Valid) (h : Follower id w)
    (href : Refines p c id w) (hid : InBounds p.stockCodes id) (hring : p.ring id = some c)
    (hs : Step p w v) : Follower id v := by
  cases hs with
  | main hs => exact h.mainStep hp hid hs
  | tick hs =>
    obtain ⟨hmain, -, hcomputes, -, hhandled, -⟩ := hs.frame
    exact h.congr hmain (by rw [hhandled]) (by rw [hcomputes])
  | @thread c' hc' hs =>
    have hframe := hs.frame hi hp hc'
    have hstarted := hs.started hi id
    by_cases hc : c = c'
    · subst hc
      have hinv : (w.compute c id).Inv := (href.started hstarted).reachable.inv.compute
      refine ⟨fun hn => absurd (hframe.main ▸ hstarted) hn, fun hn => ?_⟩
      exact (h.computing (hframe.main ▸ hn)).threadStep hinv hs
    · have hne : p.ring id ≠ some c' := fun hr => hc (Option.some.inj (hring.symm.trans hr))
      obtain ⟨hcompute, -, hhandled, -⟩ := hframe.stocks id hne
      exact h.congr hframe.main hhandled hcompute

theorem Reachable.follower (hp : p.Valid) (hw : Reachable p w) (hid : InBounds p.stockCodes id)
    (hring : p.ring id = some c) : Follower id w := by
  induction hw with
  | init => exact follower_init p id
  | step hw hs ih => exact ih.step (hw.inv hp) hp (hw.refines hp hid hring) hid hring hs

/-- **A compute follows its stock alone.**  In every run of the program, without a tick
    rejected by the ring, a compute was given the first ticks that its stock pushed, and it
    is in the state that a compute reaches that is given these ticks and nothing else; the
    decisions, the other stocks and the order of all steps only touch what `settled` hides. -/
theorem program_stream (hp : p.Valid) (hw : Reachable p w) (hid : InBounds p.stockCodes id)
    (hring : p.ring id = some c) (hover : w.overflowed c = false)
    (hmain : w.main.Computing id) :
    ∃ (n : ℕ) (s : StockState) (d : StockCompute R),
      w.handled id = (pushed (w.effects id)).take n ∧
      (StockCompute.start {} s).runTicks b ((pushed (w.effects id)).take n) = some d ∧
      (w.computes id).settled = d.settled := by
  obtain ⟨s, d, hrun, hsettled⟩ := (hw.follower hp hid hring).computing hmain
  have hfifo := (hw.fifo hp hid hring).exact hover
  have htake : w.handled id = (pushed (w.effects id)).take (w.handled id).length := by
    rw [← hfifo, List.take_left]
  exact ⟨_, s, d, htake, htake ▸ hrun, hsettled⟩

theorem program_stream_two : ∃ w : Program (.replay .SH) ℚ, Reachable twoStocks w ∧
    w.handled 0 = nearLimitTicks ∧
    ∃ (n : ℕ) (s : StockState) (d : StockCompute ℚ),
      w.handled 0 = (pushed (w.effects 0)).take n ∧
      (StockCompute.start {} s).runTicks (.replay .SH) ((pushed (w.effects 0)).take n) = some d ∧
      (w.computes 0).settled = d.settled := by
  obtain ⟨w, hw, hmain, hover, hhandled, -⟩ := exists_decided
  exact ⟨w, hw, hhandled, program_stream (c := 0) valid_twoStocks hw ⟨by decide, by decide⟩
    (by decide) hover (by rw [hmain]; trivial)⟩

end Program

end Mdd2
