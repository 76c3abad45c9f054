/-
  The speculative computation of the compute thread.

  * `computeFutureWantBuy_eq`: one decision pushes one slot, and changes nothing
    but the saved state;
  * `ComputeThread.Inv` is the invariant of the rounds (`Inv.step`);
  * `onApproach_no_trace`: in every round, `onApproach` pushes the decisions for
    the next two slots, and leaves the real series as it was.
-/
import Mdd2.ComputeThread
import Mdd2.Proof.Handlers

namespace Mdd2

variable {R : Type} [FactorScalar R]

namespace FState

/-- Passing slots only appends snapshots. -/
theorem snapshots_iterate (f : FState R) (n : ℕ) :
    ∃ r, (nextSlot^[n] f).snapshots = f.snapshots ++ r := by
  induction n with
  | zero => exact ⟨[], (List.append_nil _).symm⟩
  | succ n ih =>
    obtain ⟨r, hr⟩ := ih
    rw [Function.iterate_succ_apply']
    exact ⟨r ++ [(nextSlot^[n] f).currSnapshot], by rw [nextSlot, hr, List.append_assoc]⟩

end FState

namespace StockCompute

theorem resize_append (l r : List Snapshot) : resize (l ++ r) l.length = l := by
  simp [resize]

variable {c : StockCompute R}

/-- What `saveSnapshot` keeps. -/
def saved (f : FState R) : BState R where
  savingMode := true
  nextTickTimestamp := f.nextTickTimestamp
  currSnapshot := f.currSnapshot
  oldSnapshotsCount := f.snapshots.length
  iirState := f.iirState

/-- What `restoreSnapshot` leaves of it, with the series of the run ahead. -/
def restored (f : FState R) (iirState : Option (IIRState R)) : BState R :=
  { saved f with savingMode := false, iirState }

omit [FactorScalar R] in
theorem saveSnapshot_eq (hf : c.fState.iirState.isSome) (hb : c.bState.iirState.isSome) :
    c.saveSnapshot = some { c with bState := saved c.fState } := by
  obtain ⟨i, hi⟩ := Option.isSome_iff_exists.1 hf
  obtain ⟨j, hj⟩ := Option.isSome_iff_exists.1 hb
  simp only [saveSnapshot, hi, hj, saved]
  rw [← hi]

omit [FactorScalar R] in
/-- A run ahead of the saved series is taken back. -/
theorem restoreSnapshot_eq {f : FState R} {r : List Snapshot}
    (hr : f.snapshots = c.fState.snapshots ++ r) :
    restoreSnapshot { c with bState := saved c.fState, fState := f } =
      { c with bState := restored c.fState f.iirState } := by
  simp only [restoreSnapshot, saved, restored, hr, resize_append]

theorem speculate_eq (hf : c.fState.OnGrid) (hb : c.bState.iirState.isSome)
    (ht : OnTick c.futureTimestamp) :
    ∃ f r, f.iirState.isSome ∧ f.snapshots = c.fState.snapshots ++ r ∧
      c.speculate = some { c with bState := saved c.fState, fState := f } := by
  obtain ⟨n, hn, hgrid⟩ := hf.stepSnapshotUntil ht.le
  obtain ⟨r, hr⟩ := c.fState.snapshots_iterate n
  let g : FState R := { FState.nextSlot^[n] c.fState with currSnapshot :=
    { buyUpSellOrders c.upSellOrders (FState.nextSlot^[n] c.fState).currSnapshot with
      lastPrice := c.upperLimitPrice } }
  have hg : g.iirState.isSome := hgrid.iirState
  refine ⟨g.recorded, r ++ [g.currSnapshot], FState.isSome_nextSlot hg, ?_, ?_⟩
  · rw [← List.append_assoc, ← hr]; rfl
  · rw [speculate, saveSnapshot_eq hf.iirState hb]
    simp only [Option.bind_eq_bind, Option.bind_some, hn]
    rw [FState.stepSnapshot_eq hg]
    rfl

/-- **One decision** pushes one slot, and changes nothing but the saved state. -/
theorem computeFutureWantBuy_eq (hf : c.fState.OnGrid) (hb : c.bState.iirState.isSome)
    (ht : OnTick c.futureTimestamp) (model : StockCompute R → Bool) (w : WantCache) :
    ∃ c' bState, c.speculate = some c' ∧ bState.iirState.isSome ∧
      c.computeFutureWantBuy model w = some ({ c with bState },
        w.pushWantBuyTimestamp c.futureTimestamp (decideWantBuy model c'),
        ⟨c.futureTimestamp, decideWantBuy model c'⟩) := by
  obtain ⟨f, r, hi, hr, hspec⟩ := speculate_eq hf hb ht
  refine ⟨_, restored c.fState f.iirState, hspec, hi, ?_⟩
  rw [computeFutureWantBuy, hspec]
  simp only [Option.bind_eq_bind, Option.bind_some, restoreSnapshot_eq hr]

/-- One decision of `onApproach`. -/
theorem approachStep_eq (hf : c.fState.OnGrid) (hb : c.bState.iirState.isSome)
    (ht : OnTick c.futureTimestamp) (model : StockCompute R → Bool) (w : WantCache) :
    ∃ bState wantBuy, bState.iirState.isSome ∧ c.approachStep model w = some
      ({ c with bState, futureTimestamp := timestampAdvance100ms c.futureTimestamp },
        w.pushWantBuyTimestamp c.futureTimestamp wantBuy, ⟨c.futureTimestamp, wantBuy⟩) := by
  obtain ⟨c', bState, -, hi, hcompute⟩ := computeFutureWantBuy_eq hf hb ht model w
  exact ⟨bState, _, hi, by rw [approachStep, hcompute]; rfl⟩

end StockCompute

/-! ## Rounds -/

namespace ComputeThread
variable {b : Build} {model : StockCompute R → Bool} {t u : ComputeThread R}

/-- The invariant of the rounds: the first decision is for the current slot, and
    the second one for the next. -/
structure Inv (t : ComputeThread R) : Prop where
  sound : t.stock.Sound
  approach : t.phase = .approach → t.stock.approachingLimitUp ∧
    t.stock.futureTimestamp = t.stock.fState.nextTickTimestamp ∧ t.stock.firstCompute
  second : t.phase = .second → t.stock.approachingLimitUp ∧ t.stock.futureTimestamp =
    timestampAdvance100ms t.stock.fState.nextTickTimestamp

theorem Inv.init (s : StockState) : Inv (init s : ComputeThread R) where
  sound := StockCompute.Sound.start s
  approach h := absurd h (by simp [ComputeThread.init])
  second h := absurd h (by simp [ComputeThread.init])

omit [FactorScalar R] in
/-- A decision is for a slot time, of a stock that is alive. -/
theorem Inv.decides (hi : t.Inv) (hphase : t.phase = .approach ∨ t.phase = .second) :
    t.stock.alive ∧ OnTick t.stock.futureTimestamp := by
  rcases hphase with hphase | hphase
  · obtain ⟨happroach, hfuture, -⟩ := hi.approach hphase
    have ha := hi.sound.alive happroach
    exact ⟨ha, hfuture ▸ (hi.sound.onGrid ha).onTick⟩
  · obtain ⟨happroach, hfuture⟩ := hi.second hphase
    have ha := hi.sound.alive happroach
    exact ⟨ha, hfuture ▸ (hi.sound.onGrid ha).onTick.advance⟩

/-- The step of a decision. -/
theorem Inv.approachStep_eq (hi : t.Inv) (hphase : t.phase = .approach ∨ t.phase = .second)
    (firstCompute : Bool) (model : StockCompute R → Bool) (w : WantCache) :
    ∃ bState wantBuy, bState.iirState.isSome ∧
      { t.stock with firstCompute }.approachStep model w = some
        ({ t.stock with
            firstCompute, bState
            futureTimestamp := timestampAdvance100ms t.stock.futureTimestamp },
          w.pushWantBuyTimestamp t.stock.futureTimestamp wantBuy,
          ⟨t.stock.futureTimestamp, wantBuy⟩) := by
  obtain ⟨ha, ht⟩ := hi.decides hphase
  exact StockCompute.approachStep_eq (c := { t.stock with firstCompute }) (hi.sound.onGrid ha)
    (hi.sound.bState ha) ht model w

/-- A step pushes the decision for a slot time, or nothing. -/
theorem Inv.cache {ds : List Decision} (hi : t.Inv) (h : Step b model t ds u) :
    ds = [] ∧ u.cache = t.cache ∨ ∃ d, ds = [d] ∧ OnTick d.timestamp ∧
      u.cache = t.cache.pushWantBuyTimestamp d.timestamp d.wantBuy := by
  cases h with
  | @first c d w w' dec ha hstep =>
    obtain ⟨bState, wantBuy, -, heq⟩ := hi.approachStep_eq (.inl rfl) c.firstCompute model w
    cases heq.symm.trans hstep
    exact .inr ⟨_, rfl, (hi.decides (.inl rfl)).2, rfl⟩
  | @second c d w w' dec hstep =>
    obtain ⟨bState, wantBuy, -, heq⟩ := hi.approachStep_eq (.inr rfl) false model w
    cases heq.symm.trans hstep
    exact .inr ⟨_, rfl, (hi.decides (.inr rfl)).2, rfl⟩
  | _ => exact .inl ⟨rfl, rfl⟩

theorem Inv.step {ds : List Decision} (hi : t.Inv) (h : Step b model t ds u) : u.Inv := by
  have hs := hi.sound
  cases h with
  | clear => exact ⟨⟨hs.onGrid, hs.bState, fun h => absurd h Bool.false_ne_true⟩, nofun, nofun⟩
  | tick tick htick => exact ⟨hs.onTick htick, nofun, nofun⟩
  | @check c w =>
    unfold StockCompute.checkApproach
    by_cases ha : c.approachingLimitUp
    · simp only [if_pos ha]
      exact ⟨⟨hs.onGrid, hs.bState, hs.alive⟩, fun _ => ⟨ha, rfl, rfl⟩, nofun⟩
    · simp only [if_neg ha]
      exact ⟨hs, nofun, nofun⟩
  | skip => exact ⟨hs, nofun, nofun⟩
  | @first c d w w' dec ha hstep =>
    obtain ⟨bState, wantBuy, hb, heq⟩ := hi.approachStep_eq (.inl rfl) c.firstCompute model w
    obtain ⟨-, hfuture, hfirst⟩ := hi.approach rfl
    cases heq.symm.trans hstep
    rw [if_pos hfirst]
    exact ⟨⟨hs.onGrid, fun _ => hb, hs.alive⟩, nofun,
      fun _ => ⟨ha, congrArg timestampAdvance100ms hfuture⟩⟩
  | @second c d w w' dec hstep =>
    obtain ⟨bState, wantBuy, hb, heq⟩ := hi.approachStep_eq (.inr rfl) false model w
    cases heq.symm.trans hstep
    exact ⟨⟨hs.onGrid, fun _ => hb, hs.alive⟩, nofun, nofun⟩
  | @stop p c w hp =>
    refine ⟨StockCompute.Sound.stop c, fun h => ?_, fun h => ?_⟩
    · rcases hp with rfl | rfl <;> exact absurd h nofun
    · rcases hp with rfl | rfl <;> exact absurd h nofun

theorem Reachable.inv (h : Reachable b model t) : t.Inv := by
  induction h with
  | init s => exact Inv.init s
  | step _ hstep ih => exact ih.step hstep

/-- **The speculative computation leaves no trace.**  In every round that reaches
    `onApproach`, the stock is alive, both states of the filters exist, and the
    call pushes the decisions for the next slot time and the one after it; the
    real series and the tracked orders are as before. -/
theorem onApproach_no_trace (h : Reachable b model t) (hphase : t.phase = .approach) :
    t.stock.alive ∧ t.stock.fState.iirState.isSome ∧ t.stock.bState.iirState.isSome ∧
      ∃ c b₁ b₂,
        let slot := t.stock.fState.nextTickTimestamp
        let next := timestampAdvance100ms slot
        t.stock.onApproach model t.cache =
          some (c, (t.cache.pushWantBuyTimestamp slot b₁).pushWantBuyTimestamp next b₂,
            [⟨slot, b₁⟩, ⟨next, b₂⟩]) ∧
        c.fState = t.stock.fState ∧ c.upSellOrders = t.stock.upSellOrders := by
  obtain ⟨phase, c, w⟩ := t
  obtain rfl : phase = .approach := hphase
  have hi := h.inv
  obtain ⟨happroach, hfuture, hfirst⟩ := hi.approach rfl
  have ha := hi.sound.alive happroach
  obtain ⟨bState, b₁, -, heq⟩ := hi.approachStep_eq (.inl rfl) c.firstCompute model w
  have hi' := hi.step (b := b) (.first happroach heq)
  rw [if_pos hfirst] at hi'
  obtain ⟨bState', b₂, -, heq'⟩ := hi'.approachStep_eq (.inr rfl) false model
    (w.pushWantBuyTimestamp c.futureTimestamp b₁)
  change c.futureTimestamp = c.fState.nextTickTimestamp at hfuture
  refine ⟨ha, (hi.sound.onGrid ha).iirState, hi.sound.bState ha, { c with
    firstCompute := false
    bState := bState'
    futureTimestamp := timestampAdvance100ms (timestampAdvance100ms c.futureTimestamp) },
    b₁, b₂, ?_, rfl, rfl⟩
  change c.onApproach model w = _
  change c.approachStep model w = _ at heq
  rw [StockCompute.onApproach, if_pos happroach, heq, ← hfuture]
  simp only [Option.bind_eq_bind, Option.bind_some]
  rw [if_pos hfirst]
  exact congrArg (Option.bind · _) heq'

theorem onApproach_no_trace_first : ∃ t : ComputeThread ℚ, t.phase = .approach ∧
    t.stock.alive ∧ t.stock.fState.iirState.isSome ∧ t.stock.bState.iirState.isSome ∧
      ∃ c b₁ b₂,
        let slot := t.stock.fState.nextTickTimestamp
        let next := timestampAdvance100ms slot
        t.stock.onApproach (fun _ => true) t.cache =
          some (c, (t.cache.pushWantBuyTimestamp slot b₁).pushWantBuyTimestamp next b₂,
            [⟨slot, b₁⟩, ⟨next, b₂⟩]) ∧
        c.fState = t.stock.fState ∧ c.upSellOrders = t.stock.upSellOrders := by
  have hinit : Reachable (.replay .SH) (fun _ => true)
      (init { upperLimitPrice := 1100, alive := true } : ComputeThread ℚ) := .init _
  have htick : Reachable (.replay .SH) (fun _ => true) _ :=
    (hinit.step .clear).step (.tick ⟨600000, 93000000, 1090, 100, 5, 6⟩ rfl)
  exact ⟨_, rfl, onApproach_no_trace (htick.step .check) rfl⟩

end ComputeThread

end Mdd2
