/-
  What a replay of a day leads to, whatever the order of the steps of its threads.

  * `Step.program`: a replay is a run of the program;
  * `Published`, `Tracks`: the invariants of a replay, for the statics and for one stock;
  * `replay_run`: a compute is in the state that the records of its stock in the files lead
    to, when the stock and the compute are run alone, one after the other;
  * `replay_orders`: the orders, with their responses.
-/
import Mdd2.Proof.Metadata
import Mdd2.Proof.ProgramBuys
import Mdd2.Proof.ProgramStream
import Mdd2.Proof.Replay
import Mdd2.ReplayRun

namespace Mdd2

open MDD (InBounds)
open Program (Setup Main MainStep)

/-! ## A stock alone -/

namespace StockState
variable {b : Build} {alwaysBuy : Bool}

theorem run_concat (s : StockState) (es : List (Event b)) (e : Event b) :
    s.run b alwaysBuy (es ++ [e]) = (((s.run b alwaysBuy es).1.handle b alwaysBuy e).1,
      (s.run b alwaysBuy es).2 ++ ((s.run b alwaysBuy es).1.handle b alwaysBuy e).2) := by
  simp only [run, Machine.run_append, Machine.run, List.append_nil]

/-- The answers of the want cache do not matter as long as the stock lives. -/
theorem run_intent {s : StockState} {ticks : List b.Tick} {intent : WantCache.Intent}
    (h : (s.run b alwaysBuy (ticks.map (.tick · intent))).1.alive) (intent' : WantCache.Intent) :
    s.run b alwaysBuy (ticks.map (.tick · intent')) =
      s.run b alwaysBuy (ticks.map (.tick · intent)) := by
  induction ticks using List.reverseRecOn with
  | nil => rfl
  | append_singleton ticks tick ih =>
    simp only [List.map_append, List.map_cons, List.map_nil, run_concat] at h ⊢
    obtain ⟨halive, hlimit⟩ := alive_of_onTick h
    rw [ih halive, handle, handle, onTick_of_none halive hlimit, onTick_of_none halive hlimit]

/-- What a call leaves of a stock. -/
structure Kept (s s' : StockState) : Prop where
  stockCode : s'.stockCode = s.stockCode
  upperLimitPrice : s'.upperLimitPrice = s.upperLimitPrice
  preClosePrice : s'.preClosePrice = s.preClosePrice
  alive : s'.alive → s.alive

theorem Kept.refl (s : StockState) : Kept s s := ⟨rfl, rfl, rfl, id⟩

theorem Kept.trans {s s' s'' : StockState} (h : Kept s s') (h' : Kept s' s'') : Kept s s'' :=
  ⟨h'.stockCode.trans h.stockCode, h'.upperLimitPrice.trans h.upperLimitPrice,
    h'.preClosePrice.trans h.preClosePrice, h.alive ∘ h'.alive⟩

theorem kept_limitUp (s : StockState) (tick : b.Tick) : Kept s (s.limitUp b tick).1 := by
  obtain ⟨q, q100, h⟩ := s.limitUp_frame b tick
  rw [h]
  exact ⟨rfl, rfl, rfl, id⟩

theorem kept_stop (s : StockState) (timestamp : ℤ) : Kept s (s.stop b timestamp).1 := by
  rw [stop]
  split_ifs
  · exact ⟨rfl, rfl, rfl, fun h => absurd h (by simp)⟩
  · exact .refl s

theorem kept_onTick (s : StockState) (check : ℤ → WantCache.Intent) (tick : b.Tick) :
    Kept s (s.onTick b alwaysBuy check tick).1 := by
  by_cases hs : s.alive
  · cases ht : (s.limitUp b tick).2 with
    | none => rw [onTick_of_none hs ht]; exact s.kept_limitUp tick
    | some timestamp =>
      rw [onTick_of_some hs ht]
      exact (s.kept_limitUp tick).trans ((s.limitUp b tick).1.kept_stop _)
  · rw [onTick, if_neg hs]
    exact .refl s

theorem kept_handle (s : StockState) (e : Event b) : Kept s (s.handle b alwaysBuy e).1 := by
  cases e with
  | tick tick intent => exact s.kept_onTick _ tick
  | stop => exact s.kept_stop 0

theorem kept_run (s : StockState) (es : List (Event b)) : Kept s (s.run b alwaysBuy es).1 := by
  induction es generalizing s with
  | nil => exact .refl s
  | cons e es ih => exact (s.kept_handle e).trans (ih (s.handle b alwaysBuy e).1)

end StockState

theorem StockCompute.start_kept {R : Type} [FactorScalar R] (c : StockCompute R)
    {s s' : StockState} (h : s.Kept s') : c.start s' = c.start { s with alive := s'.alive } := by
  simp only [start, h.stockCode, h.upperLimitPrice, h.preClosePrice]

/-! ## Where a compute comes from -/

namespace Program
variable {b : Build} {R : Type} {p : Setup R} {w v : Program b R} {c id : Int32} {s : StockState}

theorem Main.Receives.ne_statics {main : Main} (h : main.Receives) : main ≠ .statics := by
  rintro rfl
  exact h

theorem Main.Computing.ne_statics {main : Main} (h : main.Computing id) : main ≠ .statics := by
  rintro rfl
  exact h

/-- No call of `handleTick` brings a stock to life. -/
theorem TickStep.alive (hs : TickStep p w v) (h : (v.states id).alive) : (w.states id).alive := by
  have hupdate : ∀ {i : Int32} {s : StockState}, (Function.update w.states i s id).alive →
      (w.states i).Kept s → (w.states id).alive := by
    intro i s halive hkept
    by_cases hi : id = i
    · subst hi
      rw [Function.update_self] at halive
      exact hkept.alive halive
    · rwa [Function.update_of_ne hi] at halive
  cases hs with
  | @tick i _ tick check => exact hupdate h ((w.states i).kept_onTick check tick)
  | @check i _ tick => exact hupdate h ((w.states i).kept_limitUp tick)
  | load => exact h
  | @answer i => exact hupdate h ((w.states i).kept_stop _)

variable [FactorScalar R]

/-- The compute is where its ticks have led it from a state of its stock, in which the
    stock may have been dead. -/
def Origin (s : StockState) (id : Int32) (w : Program b R) : Prop :=
  w.main.Computing id → ∃ alive : Bool, FollowsFrom { s with alive := alive } id w ∧
    (alive → s.alive) ∧ ((w.states id).alive → alive)

theorem Origin.congr (h : Origin s id w) (hmain : v.main.Computing id → w.main.Computing id)
    (hhandled : v.handled id = w.handled id)
    (hcomputes : (v.computes id).settled = (w.computes id).settled)
    (halive : (v.states id).alive → (w.states id).alive) : Origin s id v := by
  intro hc
  obtain ⟨alive, hfollows, hs, hw⟩ := h (hmain hc)
  exact ⟨alive, hfollows.congr hhandled hcomputes, hs, hw ∘ halive⟩

theorem Origin.mainStep (h : Origin s id w) (hp : p.Valid) (hid : InBounds p.stockCodes id)
    (hfollower : Follower id w) (hkept : w.main ≠ .statics → s.Kept (w.states id))
    (hs : MainStep p w v) : Origin s id v := by
  have hlen := hp.length
  cases hs with
  | handleStatic _ hmain =>
    intro hc
    rw [show Program.main _ = w.main from rfl, hmain] at hc
    exact absurd hc not_false
  | startReceive => exact fun hc => absurd hc (Nat.not_lt_zero _)
  | @startCompute i hmain hlt =>
    by_cases hid' : id = .ofNat i
    · have hnat := (ofNat_eq_iff hlen hid hlt).1 hid'
      obtain ⟨hhandled, hcompute⟩ := hfollower.waiting (by
        rw [hmain, Main.Started, hnat]
        exact lt_irrefl i)
      have hk := hkept (by rw [hmain]; simp)
      refine fun _ => ⟨(w.states id).alive,
        ⟨StockCompute.start {} { s with alive := (w.states id).alive }, ?_, ?_⟩, hk.alive,
        fun halive => halive⟩
      · show StockCompute.runTicks b _ (w.handled id) = _
        rw [hhandled]
        rfl
      · rw [← StockCompute.start_kept _ hk, ← hid']
        simp only [setCompute, Function.update_self, hcompute]
    · have hne : id.toInt.toNat ≠ i := fun he => hid' ((ofNat_eq_iff hlen hid hlt).2 he)
      refine h.congr (fun hc => ?_) rfl
        (congrArg StockCompute.settled (Function.update_of_ne hid' _ _)) (fun halive => halive)
      have hlt' : id.toInt.toNat < i + 1 := hc
      rw [hmain]
      show id.toInt.toNat < i
      omega
  | computesStarted hmain =>
    refine h.congr (fun _ => ?_) rfl rfl fun halive => halive
    rw [hmain]
    obtain ⟨h0, hlt⟩ := hid
    show id.toInt.toNat < p.stockCodes.length
    omega
  | startThread hmain | started hmain | stop hmain | join hmain =>
    refine h.congr (fun _ => ?_) rfl rfl fun halive => halive
    rw [hmain]
    trivial
  | joined | stopCompute | computesStopped | stopState => exact fun hc => absurd hc not_false

theorem Origin.step (h : Origin s id w) (hi : Inv p w) (hp : p.Valid)
    (hid : InBounds p.stockCodes id) (hring : p.ring id = some c) (href : Refines p c id w)
    (hfollower : Follower id w) (hkept : w.main ≠ .statics → s.Kept (w.states id))
    (hs : Step p w v) : Origin s id v := by
  cases hs with
  | main hs => exact h.mainStep hp hid hfollower hkept hs
  | tick hs =>
    obtain ⟨hmain, -, hcomputes, -, hhandled, -⟩ := hs.frame
    exact h.congr (fun hc => hmain ▸ hc) (by rw [hhandled]) (by rw [hcomputes]) hs.alive
  | @thread c' hc' hs =>
    have hframe := hs.frame hi hp hc'
    by_cases hc : c = c'
    · subst hc
      have hinv : (w.compute c id).Inv :=
        (href.started (hs.started hi id)).reachable.inv.compute
      intro hcomputing
      obtain ⟨alive, hfollows, hs', hw⟩ := h (hframe.main ▸ hcomputing)
      exact ⟨alive, hfollows.threadStep hinv hs, hs', by rw [hframe.states]; exact hw⟩
    · have hne : p.ring id ≠ some c' := fun hr => hc (Option.some.inj (hring.symm.trans hr))
      obtain ⟨hcompute, -, hhandled, -⟩ := hframe.stocks id hne
      exact h.congr (fun hc => hframe.main ▸ hc) hhandled (by rw [hcompute])
        (by rw [hframe.states]; exact fun halive => halive)

end Program

/-! ## Metadata -/

namespace Metadata

theorem exists_of_bind {ε α β : Type} {x : Except ε α} {f : α → Except ε β} {r : β}
    (h : (x >>= f) = .ok r) : ∃ a, x = .ok a ∧ f a = .ok r := by
  cases x with
  | error e => cases h
  | ok a => exact ⟨a, rfl, h⟩

theorem readLine_stock {stock : Int32} {line : List Char} {stat : MetadataStat}
    (h : readLine stock line = .ok (some stat)) : stat.stock = stock := by
  rw [readLine] at h
  obtain ⟨code, -, h⟩ := exists_of_bind h
  split_ifs at h with hne
  · cases h
  · obtain ⟨openPrice, -, h⟩ := exists_of_bind h
    obtain ⟨preClosePrice, -, h⟩ := exists_of_bind h
    obtain ⟨highPrice, -, h⟩ := exists_of_bind h
    obtain ⟨lowPrice, -, h⟩ := exists_of_bind h
    obtain ⟨closePrice, -, h⟩ := exists_of_bind h
    obtain ⟨upperLimitPrice, -, h⟩ := exists_of_bind h
    obtain ⟨lowerLimitPrice, -, h⟩ := exists_of_bind h
    obtain ⟨floatMV, -, h⟩ := exists_of_bind h
    cases h
    exact not_not.1 hne

/-- The metadata is that of the stock, or all zeros. -/
theorem readLines_stock {stock : Int32} {lines : List (List Char)} {stat : MetadataStat}
    (h : readLines stock lines = .ok stat) : stat.stock = stock ∨ stat = .zero := by
  induction lines with
  | nil =>
    cases h
    exact .inr rfl
  | cons line lines ih =>
    rw [readLines] at h
    obtain ⟨found, hline, h⟩ := exists_of_bind h
    cases found with
    | none => exact ih h
    | some stat' =>
      cases h
      exact .inl (readLine_stock hline)

theorem getStatic_stock {file : Option (List Char)} {stock : Int32} {stat : MetadataStat}
    (h : getStatic file stock = .ok stat) : stat.stock = stock ∨ stat = .zero := by
  cases file with
  | none => cases h
  | some text =>
    rw [getStatic] at h
    cases hlines : readLines stock (Text.getlines '\n' text).tail with
    | error e => rw [hlines] at h; cases h
    | ok stat' =>
      rw [hlines] at h
      cases h
      exact readLines_stock hlines

end Metadata

namespace ReplayRun
variable {m : Market} {R : Type} {p : Setup R} {day : Day} {w v : ReplayRun m R} {id code : Int32}

/-- A stock after the statics: a stock that is not in the metadata stays dead. -/
def watched (m : Market) (metadata : Option (List Char)) (code : Int32) : StockState :=
  match Metadata.getStatic metadata code with
  | .ok stat =>
    if stat.stock = code then (StockState.start code).onStatic (.replay m) (.ofReplay m stat)
    else .start code
  | .error _ => .start code

/-- The ticks of a stock that were handed over. -/
def own (p : Setup R) (day : Day) (id : Int32) (w : ReplayRun m R) : List L2.Tick :=
  (day.tickBuf.take w.i).filter fun tick => p.idOf (.replay m) tick = id

/-- The call of `MDD::stop`. -/
def stops (b : Build) (id : Int32) : Main → List (Event b)
  | .stopStates next => if id.toInt.toNat < next then [.stop] else []
  | _ => []

theorem stops_of_receives {main : Main} (h : main.Receives) (b : Build) (id : Int32) :
    stops b id main = [] := by
  cases main with
  | stopStates => exact absurd h not_false
  | _ => rfl

theorem stops_of_computing {main : Main} (h : main.Computing id) (b : Build) :
    stops b id main = [] := by
  cases main with
  | stopStates => exact absurd h not_false
  | _ => rfl

/-- The calls on a stock that have ended, where the want cache has answered `intent`. -/
def calls (p : Setup R) (day : Day) (id : Int32) (w : ReplayRun m R) (intent : WantCache.Intent) :
    List (Event (.replay m)) :=
  (own p day id w).map (.tick · intent) ++ stops _ id w.program.main

/-- The code of a stock. -/
def codeOf (p : Setup R) (id : Int32) : Int32 := p.stockCodes.getD id.toInt.toNat 0

/-- What a replay relies on: each stock has a slot of its own in the table, none has the
    code of metadata that was not found, and the hash set holds the stocks. -/
structure Day.Valid (m : Market) (p : Setup R) (day : Day) : Prop where
  nodup : p.stockCodes.Nodup
  served : ∀ code ∈ p.stockCodes, Served m code
  zero : 0 ∉ p.stockCodes
  subscribed : day.subscribedStocks.Perm p.stockCodes

theorem Day.Valid.lookup_iff (hd : day.Valid m p) (hid : InBounds p.stockCodes id)
    (stock : Int32) : lookupStockId m p.stockCodes stock = id ↔ stock = codeOf p id := by
  obtain ⟨h0, hlt⟩ := hid
  have hnat : id.toInt.toNat < p.stockCodes.length := by omega
  have hcode : codeOf p id = p.stockCodes[id.toInt.toNat] := List.getD_eq_getElem _ _ hnat
  constructor
  · intro hlookup
    by_cases hmem : stock ∈ p.stockCodes
    · obtain ⟨j, hj, rfl⟩ := List.getElem_of_mem hmem
      have hpos := lookupStockId_of_mem hd.nodup hd.served hj
      rw [hlookup] at hpos
      have hj' : id.toInt.toNat = j := by omega
      rw [hcode]
      simp only [hj']
    · rw [lookupStockId_of_notMem hd.served hmem] at hlookup
      rw [← hlookup] at h0
      exact absurd h0 (by decide)
  · rintro rfl
    have hpos := lookupStockId_of_mem hd.nodup hd.served hnat
    rw [← hcode] at hpos
    exact Int32.toInt_inj.1 (by omega)

theorem codeOf_mem (hid : InBounds p.stockCodes id) : codeOf p id ∈ p.stockCodes := by
  obtain ⟨h0, hlt⟩ := hid
  rw [codeOf, List.getD_eq_getElem _ _ (by omega)]
  exact List.getElem_mem _

theorem Day.Valid.codeOf_inj (hd : day.Valid m p) (hid : InBounds p.stockCodes id) {i : Int32}
    (hi : InBounds p.stockCodes i) (h : codeOf p id = codeOf p i) : id = i :=
  ((hd.lookup_iff hid _).2 rfl).symm.trans ((hd.lookup_iff hi _).2 h)

/-- **The ticks of a stock are those with its code.** -/
theorem Day.Valid.own_eq (hd : day.Valid m p) (hid : InBounds p.stockCodes id) :
    own p day id w = (day.tickBuf.take w.i).filter (·.stock = codeOf p id) := by
  refine List.filter_congr fun tick _ => ?_
  rw [decide_eq_decide]
  exact hd.lookup_iff hid tick.stock

/-! ## Invariants -/

/-- The statics. -/
structure Published (p : Setup R) (w : ReplayRun m R) : Prop where
  done : w.program.main ≠ .statics → w.unpublished = []
  start : w.program.main = .statics → w.i = 0
  nodup : w.unpublished.Nodup
  subset : ∀ stock ∈ w.unpublished, stock ∈ p.stockCodes

/-- The calls that have ended lead a stock to a state, with its effects. -/
def Ran (p : Setup R) (day : Day) (id : Int32) (w : ReplayRun m R) (s : StockState) : Prop :=
  ∃ intent, (watched m day.metadata (codeOf p id)).run (.replay m) false (calls p day id w intent) =
    (s, w.program.effects id)

/-- A stock in a replay. -/
structure Tracks (p : Setup R) (day : Day) (id : Int32) (w : ReplayRun m R) : Prop where
  quiet : w.program.main = .statics → w.program.effects id = []
  fresh : codeOf p id ∈ w.unpublished → w.program.states id = .start (codeOf p id)
  ran : codeOf p id ∉ w.unpublished → w.program.checking id = none →
    Ran p day id w (w.program.states id)
  checking : ∀ c, w.program.checking id = some c → ∃ tick s, day.tickBuf[w.i]? = some tick ∧
    p.idOf (.replay m) tick = id ∧ s.alive ∧ Ran p day id w s ∧
      s.limitUp (.replay m) tick = (w.program.states id, some c.timestamp)

theorem own_succ {tick : L2.Tick} (htick : day.tickBuf[w.i]? = some tick) (hi : v.i = w.i + 1) :
    own p day id v =
      own p day id w ++ if p.idOf (.replay m) tick = id then [tick] else [] := by
  rw [own, own, hi, List.take_add_one, htick, Option.toList_some, List.filter_append]
  split_ifs with h <;> simp [h]

theorem Ran.congr {s : StockState} (h : Ran p day id w s) (hown : own p day id v = own p day id w)
    (hstops : stops (.replay m) id v.program.main = stops (.replay m) id w.program.main)
    (heffects : v.program.effects id = w.program.effects id) : Ran p day id v s := by
  obtain ⟨intent, h⟩ := h
  refine ⟨intent, ?_⟩
  rw [calls, hown, hstops, heffects]
  exact h

/-- A step that has nothing to do with the stock. -/
theorem Tracks.congr (h : Tracks p day id w) (hmain : v.program.main = .statics →
      w.program.main = .statics)
    (hunpublished : codeOf p id ∈ v.unpublished ↔ codeOf p id ∈ w.unpublished)
    (hstates : v.program.states id = w.program.states id)
    (hchecking : v.program.checking id = w.program.checking id)
    (hown : own p day id v = own p day id w)
    (hstops : stops (.replay m) id v.program.main = stops (.replay m) id w.program.main)
    (heffects : v.program.effects id = w.program.effects id)
    (hi : v.i = w.i ∨ w.program.checking id = none) : Tracks p day id v where
  quiet hs := heffects ▸ h.quiet (hmain hs)
  fresh hmem := hstates ▸ h.fresh (hunpublished.1 hmem)
  ran hmem hnone := by
    rw [hstates]
    exact (h.ran (fun hm => hmem (hunpublished.2 hm)) (hchecking ▸ hnone)).congr hown hstops
      heffects
  checking c hc := by
    rw [hchecking] at hc
    rcases hi with hi | hnone
    · obtain ⟨tick, s, htick, hlookup, halive, hran, hlimit⟩ := h.checking c hc
      exact ⟨tick, s, hi ▸ htick, hlookup, halive, hran.congr hown hstops heffects,
        hstates ▸ hlimit⟩
    · exact absurd (hnone.symm.trans hc) (by simp)

/-- The invariant of a replay. -/
structure Inv (p : Setup R) (day : Day) (w : ReplayRun m R) : Prop where
  published : Published p w
  inBounds : ∀ id, w.program.checking id ≠ none → InBounds p.stockCodes id
  tracks : ∀ id, InBounds p.stockCodes id → Tracks p day id w

/-- All stocks are published before the quotes are received. -/
theorem Inv.notMem (h : Inv p day w) (hmain : w.program.main ≠ .statics) (id : Int32) :
    codeOf p id ∉ w.unpublished := by
  rw [h.published.done hmain]
  exact List.not_mem_nil

/-- A stock lives while its call waits for the want cache. -/
theorem Tracks.alive_of_checking (h : Tracks p day id w) {c : Checking}
    (hc : w.program.checking id = some c) : (w.program.states id).alive := by
  obtain ⟨tick, s, -, -, halive, -, hlimit⟩ := h.checking c hc
  have hsame := s.limitUp_alive (.replay m) tick
  rw [hlimit] at hsame
  exact hsame.trans halive

theorem Day.Valid.inv_init (hd : day.Valid m p) : Inv p day (init p day : ReplayRun m R) where
  published := ⟨fun h => absurd rfl h, fun _ => rfl, hd.subscribed.nodup_iff.2 hd.nodup,
    fun _ hmem => hd.subscribed.subset hmem⟩
  inBounds _ hne := absurd rfl hne
  tracks id hid := ⟨fun _ => rfl, fun _ => rfl,
    fun hmem => absurd (hd.subscribed.symm.subset (codeOf_mem hid)) hmem,
    fun c hc => absurd hc (by simp [init, Program.init])⟩

/-! ## The program -/

section
variable [FactorScalar R]

/-- **A replay is a run of the program.** -/
theorem Step.program (hs : Step p day w v) :
    v.program = w.program ∨ Program.Step p w.program v.program := by
  cases hs with
  | @handleStatic stock id stocks stat hmain _ _ hlookup hne hid =>
    exact .inr (.main (.handleStatic (.ofReplay m stat) hmain hlookup hne hid))
  | dropStatic | dropTick => exact .inl rfl
  | startReceive hmain _ => exact .inr (.main (.startReceive hmain))
  | main _ hs => exact .inr (.main hs)
  | thread hc hs => exact .inr (.thread hc hs)
  | tick check reject hidle hat hlookup hne hid hring hnone hfits =>
    exact .inr (.tick (.tick _ check reject hat.receives hlookup hne hid hring (hidle _) hnone
      hfits))
  | check hidle hat hlookup hne hid halive hlimit =>
    exact .inr (.tick (.check _ hat.receives hlookup hne hid (hidle _) halive hlimit))
  | load h hid hchecking => exact .inr (.tick (.load h hid hchecking))
  | answer reject hid hring hchecking hloaded hfits _ =>
    exact .inr (.tick (.answer reject hid hring hchecking hloaded hfits))

theorem Reachable.program (hw : Reachable p day w) : Program.Reachable p w.program := by
  induction hw with
  | init => exact .init
  | step _ hs ih =>
    rcases hs.program with heq | hstep
    · rw [heq]
      exact ih
    · exact ih.step hstep

end

/-! ## Steps -/

/-- The next stock is published. -/
theorem Inv.publish (h : Inv p day w) {stock : Int32} {stocks : List Int32}
    (hmain : w.program.main = .statics) (hidle : w.Idle)
    (hunpublished : w.unpublished = stock :: stocks) (hv : v.unpublished = stocks)
    (hmain' : v.program.main = .statics) (hi : v.i = w.i)
    (heffects : v.program.effects = w.program.effects)
    (hchecking : v.program.checking = w.program.checking)
    (hstates : ∀ id, InBounds p.stockCodes id → v.program.states id =
      if codeOf p id = stock then watched m day.metadata stock else w.program.states id) :
    Inv p day v := by
  obtain ⟨hpub, -, htracks⟩ := h
  have hnodup := hpub.nodup
  rw [hunpublished, List.nodup_cons] at hnodup
  refine ⟨⟨fun hne => absurd hmain' hne, fun _ => hi.trans (hpub.start hmain), hv ▸ hnodup.2,
    fun code hcode => hpub.subset code ?_⟩,
    fun id hne => absurd (by rw [hchecking]; exact hidle id) hne, fun id hid => ?_⟩
  · rw [hunpublished]
    exact List.mem_cons_of_mem _ (hv ▸ hcode)
  · have ht := htracks id hid
    by_cases hcode : codeOf p id = stock
    · have hstate := hstates id hid
      rw [if_pos hcode] at hstate
      refine ⟨fun _ => heffects ▸ ht.quiet hmain, fun hmem => ?_, fun _ _ => ?_, fun c hc => ?_⟩
      · rw [hv, hcode] at hmem
        exact absurd hmem hnodup.1
      · refine ⟨.NotSure, ?_⟩
        rw [heffects, ht.quiet hmain, hstate, hcode, calls, own, hi, hpub.start hmain, hmain']
        rfl
      · rw [hchecking, hidle id] at hc
        exact absurd hc (by simp)
    · refine ht.congr (fun _ => hmain) ?_ ?_ (by rw [hchecking]) ?_ (by rw [hmain', hmain])
        (by rw [heffects]) (.inl hi)
      · rw [hv, hunpublished, List.mem_cons, or_iff_right hcode]
      · rw [hstates id hid, if_neg hcode]
      · rw [own, own, hi]

theorem watched_of_stock {stat : MetadataStat}
    (h : Metadata.getStatic day.metadata code = .ok stat) (hstock : stat.stock = code) :
    watched m day.metadata code =
      (StockState.start code).onStatic (.replay m) (.ofReplay m stat) := by
  simp only [watched, h, hstock, if_true]

theorem watched_of_zero {stat : MetadataStat}
    (h : Metadata.getStatic day.metadata code = .ok stat) (hstock : stat.stock ≠ code) :
    watched m day.metadata code = .start code := by
  simp only [watched, h, hstock, if_false]

/-- A stock takes a call of `handleTick`, and the replay goes on to the next tick. -/
theorem Inv.handled (h : Inv p day w) {tick : L2.Tick} (htick : day.tickBuf[w.i]? = some tick)
    (hmain : v.program.main = w.program.main) (hunpublished : v.unpublished = w.unpublished)
    (hi : v.i = w.i + 1)
    (hidle : ∀ i, p.idOf (.replay m) tick ≠ i → w.program.checking i = none)
    (hchecking : v.Idle)
    (hothers : ∀ i, p.idOf (.replay m) tick ≠ i → v.program.states i = w.program.states i ∧
      v.program.effects i = w.program.effects i)
    (hreceives : w.program.main.Receives)
    (hself : ∀ i, InBounds p.stockCodes i → p.idOf (.replay m) tick = i →
      ∃ intent, (watched m day.metadata (codeOf p i)).run (.replay m) false
        (calls p day i w intent ++ [.tick tick intent]) =
          (v.program.states i, v.program.effects i)) : Inv p day v := by
  obtain ⟨hpub, -, htracks⟩ := h
  have hstatics := hreceives.ne_statics
  have hdone := hpub.done hstatics
  refine ⟨⟨fun _ => hunpublished.trans hdone, fun hs => absurd (hmain ▸ hs) hstatics,
    by rw [hunpublished]; exact hpub.nodup, by rw [hunpublished]; exact hpub.subset⟩,
    fun id hne => absurd (hchecking id) hne, fun id hid => ?_⟩
  by_cases hid' : p.idOf (.replay m) tick = id
  · refine ⟨fun hs => absurd (hmain ▸ hs) hstatics, fun hmem => ?_, fun _ _ => ?_, fun c hc => ?_⟩
    · rw [hunpublished, hdone] at hmem
      exact absurd hmem List.not_mem_nil
    · obtain ⟨intent, hrun⟩ := hself id hid hid'
      refine ⟨intent, ?_⟩
      have hstops := stops_of_receives hreceives (.replay m) id
      rw [calls, hstops, List.append_nil] at hrun
      rw [calls, own_succ htick hi, if_pos hid', hmain, hstops, List.append_nil, List.map_append]
      exact hrun
    · rw [hchecking id] at hc
      exact absurd hc (by simp)
  · obtain ⟨hstates, heffects⟩ := hothers id hid'
    refine (htracks id hid).congr (fun hs => hmain ▸ hs) (by rw [hunpublished]) hstates
      (by rw [hchecking id, hidle id hid']) ?_ (by rw [hmain]) heffects (.inr (hidle id hid'))
    rw [own_succ htick hi, if_neg hid', List.append_nil]

/-- A step that hands over no tick. -/
theorem Inv.pass (h : Inv p day w) (hmain : w.program.main ≠ .statics)
    (hmain' : v.program.main ≠ .statics) (hunpublished : v.unpublished = w.unpublished)
    (hchecking : v.program.checking = w.program.checking) (hi : v.i = w.i)
    (htracks : ∀ id, InBounds p.stockCodes id →
      (v.program.states id = w.program.states id ∧ v.program.effects id = w.program.effects id ∧
        stops (.replay m) id v.program.main = stops (.replay m) id w.program.main) ∨
      (w.program.checking id = none ∧ Ran p day id v (v.program.states id))) : Inv p day v where
  published := ⟨fun _ => hunpublished.trans (h.published.done hmain), fun hs => absurd hs hmain',
    by rw [hunpublished]; exact h.published.nodup, by rw [hunpublished]; exact h.published.subset⟩
  inBounds id hne := h.inBounds id (by rwa [hchecking] at hne)
  tracks id hid := by
    rcases htracks id hid with ⟨hstates, heffects, hstops⟩ | ⟨hnone, hran⟩
    · exact (h.tracks id hid).congr (fun hs => absurd hs hmain') (by rw [hunpublished]) hstates
        (by rw [hchecking]) (by rw [own, own, hi]) hstops heffects (.inl hi)
    · refine ⟨fun hs => absurd hs hmain', fun hmem => ?_, fun _ _ => hran, fun c hc => ?_⟩
      · rw [hunpublished, h.published.done hmain] at hmem
        exact absurd hmem List.not_mem_nil
      · rw [hchecking, hnone] at hc
        exact absurd hc (by simp)

/-- The metadata makes a stock what `watched` says. -/
theorem Inv.onStatic_eq (h : Inv p day w) (hd : day.Valid m p) {stock i : Int32}
    {stocks : List Int32} {stat : MetadataStat} (hunpublished : w.unpublished = stock :: stocks)
    (hget : Metadata.getStatic day.metadata stock = .ok stat)
    (hlookup : lookupStockId m p.stockCodes stat.stock = i) (hin : InBounds p.stockCodes i) :
    codeOf p i = stock ∧ (w.program.states i).onStatic (.replay m) (.ofReplay m stat) =
      watched m day.metadata stock := by
  have hcode := (hd.lookup_iff hin _).1 hlookup
  have hstock : stat.stock = stock := by
    rcases Metadata.getStatic_stock hget with hstock | rfl
    · exact hstock
    · have hzero : 0 = codeOf p i := hcode
      exact absurd (hzero ▸ codeOf_mem hin) hd.zero
  rw [hstock] at hcode
  have hfresh := (h.tracks i hin).fresh (by
    rw [hunpublished, ← hcode]
    exact List.mem_cons_self)
  exact ⟨hcode.symm, by rw [hfresh, watched_of_stock hget hstock, ← hcode]⟩

theorem Inv.handleStatic (h : Inv p day w) (hd : day.Valid m p) (hidle : w.Idle)
    {stock i : Int32} {stocks : List Int32} {stat : MetadataStat}
    (hmain : w.program.main = .statics) (hunpublished : w.unpublished = stock :: stocks)
    (hget : Metadata.getStatic day.metadata stock = .ok stat)
    (hlookup : lookupStockId m p.stockCodes stat.stock = i) (hin : InBounds p.stockCodes i) :
    Inv p day { w.handleStatic i stat with unpublished := stocks } := by
  obtain ⟨hcode, hstatic⟩ := h.onStatic_eq hd hunpublished hget hlookup hin
  refine h.publish hmain hidle hunpublished rfl hmain rfl rfl rfl fun id hid => ?_
  by_cases hid' : id = i
  · subst hid'
    rw [if_pos hcode, ← hstatic]
    exact Function.update_self _ _ _
  · rw [if_neg fun heq => hid' (hd.codeOf_inj hid hin (heq.trans hcode.symm))]
    exact Function.update_of_ne hid' _ _

theorem Inv.dropStatic (h : Inv p day w) (hd : day.Valid m p) (hidle : w.Idle)
    {stock : Int32} {stocks : List Int32} {stat : MetadataStat}
    (hmain : w.program.main = .statics) (hunpublished : w.unpublished = stock :: stocks)
    (hget : Metadata.getStatic day.metadata stock = .ok stat)
    (hlookup : lookupStockId m p.stockCodes stat.stock = -1) :
    Inv p day { w with unpublished := stocks } := by
  refine h.publish hmain hidle hunpublished rfl hmain rfl rfl rfl fun id hid => ?_
  split_ifs with hcode
  · have hne : stat.stock ≠ stock := by
      intro hstock
      rw [hstock, (hd.lookup_iff hid stock).2 hcode.symm] at hlookup
      rw [hlookup] at hid
      exact absurd hid.1 (by decide)
    rw [watched_of_zero hget hne, ← hcode]
    exact (h.tracks id hid).fresh (by
      rw [hunpublished, hcode]
      exact List.mem_cons_self)
  · rfl

theorem Inv.dropTick (h : Inv p day w) {tick : L2.Tick} (hidle : w.Idle) (hat : w.At day tick)
    (hlookup : p.idOf (.replay m) tick = -1) : Inv p day { w with i := w.i + 1 } := by
  refine h.handled hat.tick rfl rfl rfl (fun i _ => hidle i) hidle (fun _ _ => ⟨rfl, rfl⟩)
    hat.receives fun i hi hi' => ?_
  rw [← hi', hlookup] at hi
  exact absurd hi.1 (by decide)

theorem Inv.tick (h : Inv p day w) {tick : L2.Tick} {i c : Int32}
    {check : ℤ → WantCache.Intent} {reject : Bool} (hidle : w.Idle) (hat : w.At day tick)
    (hlookup : p.idOf (.replay m) tick = i) (hin : InBounds p.stockCodes i)
    (hnone : (w.program.states i).alive →
      ((w.program.states i).limitUp (.replay m) tick).2 = none) :
    Inv p day { w with
      program := w.program.emit i c
        ((w.program.states i).onTick (.replay m) false check tick) reject
      i := w.i + 1 } := by
  refine h.handled hat.tick rfl rfl rfl (fun j _ => hidle j) hidle
    (fun j hj => ⟨Function.update_of_ne (hlookup ▸ hj).symm _ _,
      Function.update_of_ne (hlookup ▸ hj).symm _ _⟩) hat.receives fun j hj hj' => ?_
  obtain rfl : j = i := hj'.symm.trans hlookup
  obtain ⟨intent, hrun⟩ := (h.tracks j hj).ran (h.notMem hat.receives.ne_statics j) (hidle j)
  refine ⟨intent, ?_⟩
  have hcheck : (w.program.states j).onTick (.replay m) false (fun _ => intent) tick =
      (w.program.states j).onTick (.replay m) false check tick := by
    by_cases halive : (w.program.states j).alive
    · rw [StockState.onTick_of_none halive (hnone halive),
        StockState.onTick_of_none halive (hnone halive)]
    · rw [StockState.onTick, if_neg halive, StockState.onTick, if_neg halive]
  rw [StockState.run_concat, hrun, StockState.handle, hcheck]
  simp only [Program.emit, Function.update_self]

/-- What changes while a call waits for the want cache. -/
theorem Inv.setChecking (h : Inv p day w) {v : Program (.replay m) R} {i : Int32}
    {checking : Checking} (hin : InBounds p.stockCodes i) (hmain : v.main = w.program.main)
    (heffects : v.effects = w.program.effects)
    (hchecking : v.checking = Function.update w.program.checking i (some checking))
    (hstates : ∀ j, j ≠ i → v.states j = w.program.states j)
    (hfresh : codeOf p i ∉ w.unpublished)
    (hcall : ∃ tick s, day.tickBuf[w.i]? = some tick ∧ p.idOf (.replay m) tick = i ∧ s.alive ∧
      Ran p day i w s ∧ s.limitUp (.replay m) tick = (v.states i, some checking.timestamp)) :
    Inv p day { w with program := v } where
  published := ⟨fun hne => h.published.done (hmain ▸ hne), fun hs => h.published.start (hmain ▸ hs),
    h.published.nodup, h.published.subset⟩
  inBounds id hne := by
    by_cases hid : id = i
    · exact hid ▸ hin
    · refine h.inBounds id ?_
      rwa [show (v.checking id) = w.program.checking id by
        rw [hchecking, Function.update_of_ne hid]] at hne
  tracks id hid := by
    by_cases hid' : id = i
    · subst hid'
      have hself : v.checking id = some checking := by rw [hchecking, Function.update_self]
      refine ⟨fun hs => ?_, fun hmem => absurd hmem hfresh, fun _ hnone => ?_, fun c hc => ?_⟩
      · rw [show ({ w with program := v } : ReplayRun m R).program.effects = w.program.effects
          from heffects]
        exact (h.tracks id hid).quiet (hmain ▸ hs)
      · exact absurd (hself.symm.trans hnone) (by simp)
      · obtain rfl := Option.some.inj (hself.symm.trans hc)
        obtain ⟨tick, s, htick, hlookup, halive, hran, hlimit⟩ := hcall
        exact ⟨tick, s, htick, hlookup, halive,
          hran.congr rfl (congrArg (stops _ id) hmain) (congrFun heffects id), hlimit⟩
    · exact (h.tracks id hid).congr (fun hs => hmain ▸ hs) Iff.rfl (hstates id hid')
        (by rw [show ({ w with program := v } : ReplayRun m R).program.checking = _ from hchecking,
          Function.update_of_ne hid']) rfl (congrArg (stops _ id) hmain) (congrFun heffects id)
        (.inl rfl)

theorem sendBuyRequest_unpublished {intent : WantCache.Intent}
    (h : w.sendBuyRequest p id intent = some v) : v.unpublished = w.unpublished := by
  rw [sendBuyRequest] at h
  split_ifs at h
  · obtain ⟨reqOrder, -, rfl⟩ := Option.map_eq_some_iff.1 h
    rfl
  · obtain rfl := Option.some.inj h
    rfl

theorem Inv.answer (h : Inv p day w) (hi : Program.Inv p w.program) {w' : ReplayRun m R}
    (hunpublished : w'.unpublished = w.unpublished) {i c : Int32} {checking : Checking}
    {reject : Bool} (hin : InBounds p.stockCodes i)
    (hchecking : w.program.checking i = some checking) :
    Inv p day { w' with
      program := (w.program.emit i c ((w.program.states i).onIntent (.replay m) false
        checking.timestamp checking.scan.intent) reject).setChecking i none
      i := w.i + 1 } := by
  obtain ⟨tick, s, htick, hlookup, halive, ⟨intent, hrun⟩, hlimit⟩ :=
    (h.tracks i hin).checking checking hchecking
  have hreceives := hi.receives hchecking
  -- the replay thread is in one call at a time
  have hothers : ∀ j, j ≠ i → w.program.checking j = none := by
    intro j hj
    cases hcase : w.program.checking j with
    | none => rfl
    | some other =>
      obtain ⟨tick', -, htick', hlookup', -⟩ :=
        (h.tracks j (h.inBounds j (by rw [hcase]; simp))).checking other hcase
      obtain rfl := Option.some.inj (htick.symm.trans htick')
      exact absurd (hlookup'.symm.trans hlookup) hj
  refine h.handled htick rfl hunpublished rfl (fun j hj => hothers j (hlookup ▸ hj).symm)
    (fun j => ?_) (fun j hj => ?_) hreceives fun j hj hj' => ?_
  · by_cases hji : j = i
    · exact hji ▸ Function.update_self _ _ _
    · exact (Function.update_of_ne hji _ _).trans (hothers j hji)
  · have hji : j ≠ i := (hlookup ▸ hj).symm
    exact ⟨Function.update_of_ne hji _ _, Function.update_of_ne hji _ _⟩
  · obtain rfl : j = i := hj'.symm.trans hlookup
    refine ⟨checking.scan.intent, ?_⟩
    have hstops := stops_of_receives hreceives (.replay m) j
    rw [calls, hstops, List.append_nil] at hrun
    have halive' : ((watched m day.metadata (codeOf p j)).run (.replay m) false
        ((own p day j w).map (Event.tick (b := .replay m) · intent))).1.alive := by
      rw [hrun]
      exact halive
    rw [calls, hstops, List.append_nil, StockState.run_concat,
      StockState.run_intent halive' checking.scan.intent, hrun, StockState.handle,
      StockState.onTick_of_some halive (by rw [hlimit]), hlimit]
    simp only [Program.emit, Program.setChecking, Function.update_self]

section
variable [FactorScalar R]

theorem Inv.mainStep (h : Inv p day w) (hp : p.Valid) (hi : Program.Inv p w.program)
    {v : Program (.replay m) R} (hmain : w.program.main ≠ .statics)
    (hs : MainStep p w.program v) : Inv p day { w with program := v } := by
  have hlen := hp.length
  cases hs with
  | handleStatic _ hm => exact absurd hm hmain
  | startReceive hm => exact absurd hm hmain
  | startCompute hm | computesStarted hm | startThread hm | started hm | stop hm | join hm
  | joined hm | stopCompute hm | computesStopped hm =>
    refine h.pass hmain (by simp) rfl rfl rfl fun id _ => .inl ⟨rfl, rfl, ?_⟩
    rw [hm]
    rfl
  | @stopState i c reject hm hlt hring _ =>
    refine h.pass hmain (by simp) rfl rfl rfl fun id hid => ?_
    by_cases hid' : id = .ofNat i
    · have hnat := (Program.ofNat_eq_iff hlen hid hlt).1 hid'
      have hnone := hi.checking (by rw [hm]; exact not_false) id
      obtain ⟨intent, hrun⟩ := (h.tracks id hid).ran (h.notMem hmain id) hnone
      have hbefore : stops (.replay m) id w.program.main = [] := by
        rw [hm, stops, if_neg (by omega)]
      have hafter : stops (.replay m) id (.stopStates (i + 1)) = [.stop] := by
        rw [stops, if_pos (by omega)]
      rw [calls, hbefore, List.append_nil] at hrun
      refine .inr ⟨hnone, intent, ?_⟩
      show (watched m day.metadata (codeOf p id)).run (.replay m) false
        ((own p day id w).map (Event.tick (b := .replay m) · intent) ++
          stops (.replay m) id (.stopStates (i + 1))) = _
      rw [hafter, StockState.run_concat, hrun, hid']
      simp only [Program.emit, Function.update_self]
      rfl
    · refine .inl ⟨Function.update_of_ne hid' _ _, Function.update_of_ne hid' _ _, ?_⟩
      have hne : id.toInt.toNat ≠ i := fun he =>
        hid' ((Program.ofNat_eq_iff hlen hid hlt).2 he)
      rw [hm]
      simp only [stops]
      congr 1
      simp only [eq_iff_iff]
      omega

theorem Inv.step (h : Inv p day w) (hp : p.Valid) (hd : day.Valid m p)
    (hi : Program.Inv p w.program) (hs : Step p day w v) : Inv p day v := by
  cases hs with
  | handleStatic hmain hunpublished hget hlookup _ hin =>
    have hidle := hi.checking (by rw [hmain]; exact not_false)
    exact h.handleStatic hd hidle hmain hunpublished hget hlookup hin
  | dropStatic hmain hunpublished hget hlookup =>
    have hidle := hi.checking (by rw [hmain]; exact not_false)
    exact h.dropStatic hd hidle hmain hunpublished hget hlookup
  | startReceive hmain hunpublished =>
    refine ⟨⟨fun _ => hunpublished, fun hs => by simp at hs, h.published.nodup,
      h.published.subset⟩, h.inBounds, fun id hid => ?_⟩
    refine (h.tracks id hid).congr (fun _ => hmain) Iff.rfl rfl rfl rfl ?_ rfl (.inl rfl)
    rw [hmain]
    rfl
  | main hmain hs => exact h.mainStep hp hi hmain hs
  | thread hc hs =>
    obtain ⟨hmain, hstates, hchecking, heffects, -⟩ := hs.frame hi hp hc
    refine ⟨⟨fun hne => h.published.done (hmain ▸ hne), fun hs => h.published.start (hmain ▸ hs),
      h.published.nodup, h.published.subset⟩, fun id hne => h.inBounds id (hchecking ▸ hne),
      fun id hid => ?_⟩
    exact (h.tracks id hid).congr (fun hs => hmain ▸ hs) Iff.rfl (congrFun hstates id)
      (congrFun hchecking id) rfl (congrArg (stops _ id) hmain) (congrFun heffects id) (.inl rfl)
  | dropTick hidle hat hlookup => exact h.dropTick hidle hat hlookup
  | tick check reject hidle hat hlookup _ hin _ hnone _ => exact h.tick hidle hat hlookup hin hnone
  | @check tick id timestamp hidle hat hlookup hne hin halive hlimit =>
    have hfresh := h.notMem hat.receives.ne_statics id
    have hself : Function.update w.program.states id
        ((w.program.states id).limitUp (.replay m) tick).1 id =
          ((w.program.states id).limitUp (.replay m) tick).1 := Function.update_self _ _ _
    refine h.setChecking hin rfl rfl rfl (fun j hj => Function.update_of_ne hj _ _) hfresh
      ⟨tick, w.program.states id, hat.tick, hlookup, halive,
        (h.tracks id hin).ran hfresh (hidle id), ?_⟩
    exact Prod.ext hself.symm hlimit
  | @load id checking hlt hin hchecking =>
    obtain ⟨tick, s, htick, hlookup, halive, hran, hlimit⟩ :=
      (h.tracks id hin).checking checking hchecking
    have hfresh := h.notMem (hi.receives hchecking).ne_statics id
    exact h.setChecking hin rfl rfl rfl (fun _ _ => rfl) hfresh
      ⟨tick, s, htick, hlookup, halive, hran, hlimit⟩
  | @answer w' id c checking reject hin _ hchecking _ _ hsend =>
    exact h.answer hi (sendBuyRequest_unpublished hsend) hin hchecking

theorem Reachable.inv (hp : p.Valid) (hd : day.Valid m p) (hw : Reachable p day w) :
    Inv p day w := by
  induction hw with
  | init => exact hd.inv_init
  | step hw hs ih => exact ih.step hp hd (hw.program.inv hp) hs

end

/-! ## The computes -/

/-- What a stock has done so far. -/
theorem Tracks.exists_run (h : Tracks p day id w) (hmem : codeOf p id ∉ w.unpublished) :
    ∃ intent s, (watched m day.metadata (codeOf p id)).run (.replay m) false
      (calls p day id w intent) = (s, w.program.effects id) ∧ s.Kept (w.program.states id) ∧
        s.alive = (w.program.states id).alive := by
  cases hcase : w.program.checking id with
  | none =>
    obtain ⟨intent, hrun⟩ := h.ran hmem hcase
    exact ⟨intent, _, hrun, .refl _, rfl⟩
  | some checking =>
    obtain ⟨tick, s, -, -, -, ⟨intent, hrun⟩, hlimit⟩ := h.checking checking hcase
    have hkept := s.kept_limitUp (b := .replay m) tick
    have halive := s.limitUp_alive (.replay m) tick
    rw [hlimit] at hkept halive
    exact ⟨intent, s, hrun, hkept, halive.symm⟩

theorem Tracks.kept (h : Tracks p day id w) (hmem : codeOf p id ∉ w.unpublished) :
    (watched m day.metadata (codeOf p id)).Kept (w.program.states id) := by
  obtain ⟨intent, s, hrun, hkept, -⟩ := h.exists_run hmem
  have hall : (watched m day.metadata (codeOf p id)).Kept
      ((watched m day.metadata (codeOf p id)).run (.replay m) false (calls p day id w intent)).1 :=
    StockState.kept_run _ _
  rw [hrun] at hall
  exact hall.trans hkept

section
variable [FactorScalar R]

theorem Reachable.origin (hp : p.Valid) (hd : day.Valid m p) (hw : Reachable p day w)
    (hid : InBounds p.stockCodes id) {c : Int32} (hring : p.ring id = some c) :
    Program.Origin (watched m day.metadata (codeOf p id)) id w.program := by
  induction hw with
  | init => exact fun hc => absurd hc not_false
  | @step w v hw hs ih =>
    have hprogram := hw.program
    rcases hs.program with heq | hstep
    · rw [heq]
      exact ih
    · refine ih.step (hprogram.inv hp) hp hid hring (hprogram.refines hp hid hring)
        (hprogram.follower hp hid hring) (fun hmain => ?_) hstep
      have hinv := hw.inv hp hd
      exact (hinv.tracks id hid).kept (hinv.notMem hmain id)

/-- **A replay is a function of its files.**  In every replay of a day, a compute is in the
    state that it reaches alone, from what the metadata says of its stock, when it is given
    the first ticks that its stock alone makes of the records of its code, in the order of
    their times.  The other stocks, the number of channels and the order of all steps have
    no influence, but for how far each thread has come, for the answer of the want cache
    that the end sign carries, and for a compute that was started after its stock had seen
    the limit-up tick, which does nothing. -/
theorem replay_run (hp : p.Valid) (hd : day.Valid m p) {file : List UInt8}
    (hcount : Replay.tickCount file < 2 ^ 32) {uninit : ℕ → UInt32}
    (hfile : Replay.readReplayTicks uninit file = some day.tickBuf) (hw : Reachable p day w)
    (hid : InBounds p.stockCodes id) {c : Int32} (hring : p.ring id = some c)
    (hover : w.program.overflowed c = false) (hmain : w.program.main.Computing id) :
    ∃ (intent : WantCache.Intent) (alive : Bool) (n : ℕ) (d : StockCompute R),
      let s := watched m day.metadata (codeOf p id)
      let own := ((Replay.inTimeOrder (Replay.fileTicks file)).take w.i).filter
        (·.stock = codeOf p id)
      let alone := s.run (.replay m) false (own.map (.tick · intent))
      w.program.handled id = (pushed alone.2).take n ∧
        (StockCompute.start {} { s with alive }).runTicks (.replay m) ((pushed alone.2).take n) =
          some d ∧
        (w.program.computes id).settled = d.settled ∧
        (alive → s.alive) ∧ (alone.1.alive → alive) := by
  have hinv := hw.inv hp hd
  obtain ⟨intent, s', hrun, -, halive⟩ := (hinv.tracks id hid).exists_run
    (hinv.notMem hmain.ne_statics id)
  obtain ⟨alive, ⟨d, hticks, hsettled⟩, hs, hw'⟩ := hw.origin hp hd hid hring hmain
  have hfifo := (hw.program.fifo hp hid hring).exact hover
  have hstops := stops_of_computing hmain (.replay m)
  have hbuf : day.tickBuf = Replay.inTimeOrder (Replay.fileTicks file) :=
    Option.some.inj (hfile.symm.trans (Replay.readReplayTicks_eq hcount uninit))
  rw [calls, hstops, List.append_nil, hd.own_eq hid, hbuf] at hrun
  refine ⟨intent, alive, (w.program.handled id).length, d, ?_⟩
  have htake : w.program.handled id =
      (pushed (w.program.effects id)).take (w.program.handled id).length := by
    rw [← hfifo, List.take_left]
  simp only [hrun]
  exact ⟨htake, htake ▸ hticks, hsettled, hs, fun h => hw' (halive ▸ h)⟩

end

/-! ## The orders -/

/-- The orders of a replay, with their responses. -/
structure Orders (p : Setup R) (day : Day) (w : ReplayRun m R) : Prop where
  prepared : ∀ id, InBounds p.stockCodes id → codeOf p id ∉ w.unpublished →
    (watched m day.metadata (codeOf p id)).alive →
      w.reqOrders id = some (initReqOrder (watched m day.metadata (codeOf p id)))
  orderSysId : w.orderSysId = .ofNat (w.rspOrders.length + 1)
  nodup : (w.rspOrders.map (·.1)).Nodup
  bought : ∀ id, InBounds p.stockCodes id →
    (id ∈ w.rspOrders.map (·.1) ↔ buys (w.program.effects id) ≠ 0)
  answers : ∀ k r, w.rspOrders[k]? = some r → InBounds p.stockCodes r.1 ∧
    (watched m day.metadata (codeOf p r.1)).alive ∧
      r.2 = rspOrder (.ofNat (k + 1)) (initReqOrder (watched m day.metadata (codeOf p r.1)))

theorem Orders.congr (h : Orders p day w) (hunpublished : v.unpublished = w.unpublished)
    (hreqOrders : v.reqOrders = w.reqOrders) (horderSysId : v.orderSysId = w.orderSysId)
    (hrspOrders : v.rspOrders = w.rspOrders)
    (heffects : ∀ id, buys (v.program.effects id) = buys (w.program.effects id)) :
    Orders p day v := by
  obtain ⟨hprepared, hid, hnodup, hbought, hanswers⟩ := h
  rw [← hunpublished, ← hreqOrders] at hprepared
  rw [← horderSysId, ← hrspOrders] at hid
  rw [← hrspOrders] at hnodup hanswers
  exact ⟨hprepared, hid, hnodup, fun i hi => by rw [hrspOrders, heffects]; exact hbought i hi,
    hanswers⟩

theorem Day.Valid.orders_init (hd : day.Valid m p) :
    Orders p day (init p day : ReplayRun m R) where
  prepared _ hid hmem := absurd (hd.subscribed.symm.subset (codeOf_mem hid)) hmem
  orderSysId := rfl
  nodup := List.nodup_nil
  bought _ _ := by simp [init, Program.init, buys]
  answers _ _ h := absurd h (by simp [init])

/-- A stock that is watched is in the metadata, with a limit price. -/
theorem alive_watched (h : (watched m day.metadata code).alive) :
    ∃ stat, Metadata.getStatic day.metadata code = .ok stat ∧ stat.stock = code ∧
      (watched m day.metadata code).upperLimitPrice = stat.upperLimitPrice ∧
      stat.upperLimitPrice ≠ 0 := by
  cases hget : Metadata.getStatic day.metadata code with
  | error e =>
    simp only [watched, hget] at h
    exact absurd h (by simp [StockState.start])
  | ok stat =>
    by_cases hstock : stat.stock = code
    · refine ⟨stat, rfl, hstock, ?_⟩
      rw [watched_of_stock hget hstock] at h ⊢
      by_cases hprice : stat.upperLimitPrice = 0
      · simp [StockState.onStatic, StockState.watch, Stat.ofReplay, hprice, StockState.start] at h
      · simp [StockState.onStatic, StockState.watch, Stat.ofReplay, hprice]
    · rw [watched_of_zero hget hstock] at h
      exact absurd h (by simp [StockState.start])

theorem stockCode_watched (m : Market) (metadata : Option (List Char)) (code : Int32) :
    (watched m metadata code).stockCode = code := by
  rw [watched]
  split
  · split_ifs
    · exact MDD.onStatic_stockCode _
    · rfl
  · rfl

theorem buys_emit (w : Program (.replay m) R) (i c : Int32)
    {r : StockState × List (Effect (.replay m))} (reject : Bool) (hr : buys r.2 = 0)
    (id : Int32) : buys ((w.emit i c r reject).effects id) = buys (w.effects id) := by
  show buys (Function.update w.effects i (w.effects i ++ r.2) id) = _
  by_cases hid : id = i
  · subst hid
    rw [Function.update_self, buys_append, hr, Nat.add_zero]
  · rw [Function.update_of_ne hid]

theorem buys_stop (b : Build) (s : StockState) (timestamp : ℤ) :
    buys (s.stop b timestamp).2 = 0 := by
  rw [StockState.stop]
  split_ifs <;> rfl

theorem Orders.handleStatic (h : Orders p day w) (hi : Inv p day w) (hd : day.Valid m p)
    {stock i : Int32} {stocks : List Int32} {stat : MetadataStat}
    (hunpublished : w.unpublished = stock :: stocks)
    (hget : Metadata.getStatic day.metadata stock = .ok stat)
    (hlookup : lookupStockId m p.stockCodes stat.stock = i) (hin : InBounds p.stockCodes i) :
    Orders p day { w.handleStatic i stat with unpublished := stocks } := by
  obtain ⟨hcode, hstatic⟩ := hi.onStatic_eq hd hunpublished hget hlookup hin
  refine ⟨fun id hid hmem halive => ?_, h.orderSysId, h.nodup, h.bought, h.answers⟩
  have hreqOrders : (w.handleStatic i stat).reqOrders =
      if (watched m day.metadata stock).upperLimitPrice = 0 then w.reqOrders
      else Function.update w.reqOrders i (some (initReqOrder (watched m day.metadata stock))) := by
    rw [ReplayRun.handleStatic, hstatic]
  show (w.handleStatic i stat).reqOrders id = _
  rw [hreqOrders]
  by_cases hid' : id = i
  · subst hid'
    rw [hcode] at halive ⊢
    obtain ⟨_, -, -, hprice, hne⟩ := alive_watched halive
    rw [if_neg (by rw [hprice]; exact hne), Function.update_self]
  · have hmem' : codeOf p id ∉ w.unpublished := by
      rw [hunpublished, List.mem_cons, not_or]
      exact ⟨fun heq => hid' (hd.codeOf_inj hid hin (heq.trans hcode.symm)), hmem⟩
    split_ifs
    · exact h.prepared id hid hmem' halive
    · rw [Function.update_of_ne hid']
      exact h.prepared id hid hmem' halive

theorem Orders.dropStatic (h : Orders p day w) (hd : day.Valid m p) {stock : Int32}
    {stocks : List Int32} {stat : MetadataStat} (hunpublished : w.unpublished = stock :: stocks)
    (hget : Metadata.getStatic day.metadata stock = .ok stat)
    (hlookup : lookupStockId m p.stockCodes stat.stock = -1) :
    Orders p day { w with unpublished := stocks } := by
  refine ⟨fun id hid hmem halive => h.prepared id hid ?_ halive, h.orderSysId, h.nodup, h.bought,
    h.answers⟩
  rw [hunpublished, List.mem_cons, not_or]
  refine ⟨fun hcode => ?_, hmem⟩
  obtain ⟨stat', hget', hstock, -⟩ := alive_watched halive
  rw [hcode, hget] at hget'
  obtain rfl := Except.ok.inj hget'
  rw [(hd.lookup_iff hid _).2 hstock] at hlookup
  rw [hlookup] at hid
  exact absurd hid.1 (by decide)

/-- A stock buys. -/
theorem Orders.buy (h : Orders p day w) (hd : day.Valid m p) {i : Int32}
    (hin : InBounds p.stockCodes i) (halive : (watched m day.metadata (codeOf p i)).alive)
    (hzero : buys (w.program.effects i) = 0) {v : Program (.replay m) R} {next : ℕ}
    (heffects : ∀ id, id ≠ i → v.effects id = w.program.effects id)
    (hbuys : buys (v.effects i) = 1) :
    Orders p day { w.sendReqOrder p (initReqOrder (watched m day.metadata (codeOf p i))) with
      program := v
      i := next } := by
  have hcode := stockCode_watched m day.metadata (codeOf p i)
  have hlookup := (hd.lookup_iff hin (codeOf p i)).2 rfl
  have hne : i ≠ -1 := by
    rintro rfl
    exact absurd hin.1 (by decide)
  have hrsp : (w.sendReqOrder p (initReqOrder (watched m day.metadata (codeOf p i)))).rspOrders =
      w.rspOrders ++ [(i, rspOrder (.ofNat (w.rspOrders.length + 1))
        (initReqOrder (watched m day.metadata (codeOf p i))))] := by
    simp only [sendReqOrder, rspOrder, initReqOrder, hcode, hlookup, if_neg hne, h.orderSysId]
  refine ⟨h.prepared, ?_, ?_, fun id hid => ?_, fun k r hr => ?_⟩
  · show w.orderSysId + 1 = .ofNat (List.length (sendReqOrder p w _).rspOrders + 1)
    rw [hrsp, List.length_append, List.length_singleton, h.orderSysId,
      Int32.ofNat_add (w.rspOrders.length + 1) 1]
    rfl
  · show ((sendReqOrder p w _).rspOrders.map (·.1)).Nodup
    rw [hrsp, List.map_append, List.map_singleton]
    refine h.nodup.append (List.nodup_singleton _) fun j hj hj' => ?_
    obtain rfl := List.mem_singleton.1 hj'
    exact (h.bought j hin).1 hj hzero
  · show id ∈ (sendReqOrder p w _).rspOrders.map (·.1) ↔ buys (v.effects id) ≠ 0
    rw [hrsp, List.map_append, List.map_singleton, List.mem_append, List.mem_singleton]
    by_cases hid' : id = i
    · subst hid'
      simp [hbuys]
    · rw [or_iff_left hid', heffects id hid']
      exact h.bought id hid
  · have hr' : (sendReqOrder p w _).rspOrders[k]? = some r := hr
    rw [hrsp, List.getElem?_append] at hr'
    split_ifs at hr' with hk
    · exact h.answers k r hr'
    · obtain ⟨hk', rfl⟩ := List.getElem?_eq_some_iff.1 hr'
      have hlen : k = w.rspOrders.length := by
        rw [List.length_singleton] at hk'
        omega
      subst hlen
      simp only [List.getElem_singleton]
      exact ⟨hin, halive, trivial⟩

theorem Orders.length_le (h : Orders p day w) : w.rspOrders.length ≤ p.stockCodes.length := by
  have hin : ∀ id ∈ w.rspOrders.map (·.1), InBounds p.stockCodes id := by
    intro id hid
    obtain ⟨r, hr, rfl⟩ := List.mem_map.1 hid
    obtain ⟨k, hk⟩ := List.mem_iff_getElem?.1 hr
    exact (h.answers k r hk).1
  have hnodup := h.nodup.map_on fun i hi j hj (heq : i.toInt.toNat = j.toInt.toNat) =>
    Int32.toInt_inj.1 (by
      have hi0 := (hin i hi).1
      have hj0 := (hin j hj).1
      omega)
  have hsub : (w.rspOrders.map (·.1)).map (fun id => id.toInt.toNat) ⊆
      List.range p.stockCodes.length := by
    intro n hn
    obtain ⟨id, hid, rfl⟩ := List.mem_map.1 hn
    obtain ⟨h0, hlt⟩ := hin id hid
    exact List.mem_range.2 (by omega)
  simpa using (hnodup.subperm hsub).length_le

section
variable [FactorScalar R]

theorem Orders.step (h : Orders p day w) (hi : Inv p day w) (hd : day.Valid m p) (hp : p.Valid)
    (hw : Program.Reachable p w.program) (hs : Step p day w v) : Orders p day v := by
  cases hs with
  | handleStatic _ hunpublished hget hlookup _ hin =>
    exact h.handleStatic hi hd hunpublished hget hlookup hin
  | dropStatic _ hunpublished hget hlookup => exact h.dropStatic hd hunpublished hget hlookup
  | startReceive | dropTick | check | load => exact h.congr rfl rfl rfl rfl fun _ => rfl
  | main hmain hs =>
    refine h.congr rfl rfl rfl rfl fun id => ?_
    cases hs with
    | @stopState n c reject =>
      exact buys_emit w.program (.ofNat n) c reject (buys_stop _ _ _) id
    | _ => rfl
  | thread hc hs =>
    refine h.congr rfl rfl rfl rfl fun id => ?_
    rw [(hs.frame (hw.inv hp) hp hc).effects]
  | @tick tick i c check reject hidle hat hlookup _ hin _ hnone _ =>
    refine h.congr rfl rfl rfl rfl (buys_emit w.program i c reject ?_)
    by_cases halive : (w.program.states i).alive
    · rw [StockState.onTick_of_none halive (hnone halive)]
      rfl
    · rw [StockState.onTick, if_neg halive]
      rfl
  | @answer w' i c checking reject hin _ hchecking _ _ hsend =>
    have hinv := hw.inv hp
    have hmem := hi.notMem (hinv.receives hchecking).ne_statics i
    have halive := (hi.tracks i hin).alive_of_checking hchecking
    have hintent : buys ((w.program.states i).onIntent (.replay m) false checking.timestamp
        checking.scan.intent).2 = if checking.scan.intent = .WantBuy then 1 else 0 := by
      rw [StockState.onIntent_eq halive, buys_append]
      split_ifs <;> simp_all [buys]
    rw [sendBuyRequest] at hsend
    split_ifs at hsend with hbuy
    · have hwatched := ((hi.tracks i hin).kept hmem).alive halive
      obtain ⟨reqOrder, hreq, rfl⟩ := Option.map_eq_some_iff.1 hsend
      rw [h.prepared i hin hmem hwatched] at hreq
      obtain rfl := Option.some.inj hreq
      have hzero : buys (w.program.effects i) = 0 := (hw.requested hp hin).alive halive
      refine h.buy hd hin hwatched hzero (fun id hid => Function.update_of_ne hid _ _) ?_
      show buys (Function.update w.program.effects i _ i) = 1
      rw [Function.update_self, buys_append, hzero, hintent, if_pos hbuy]
    · obtain rfl := Option.some.inj hsend
      rw [if_neg hbuy] at hintent
      exact h.congr rfl rfl rfl rfl (buys_emit w.program i c reject hintent)

theorem Reachable.orders (hp : p.Valid) (hd : day.Valid m p) (hw : Reachable p day w) :
    Orders p day w := by
  induction hw with
  | init => exact hd.orders_init
  | step hw hs ih => exact ih.step (hw.inv hp hd) hd hp hw.program hs

/-- **The orders of a replay.**  In every replay of a day, each stock that was bought has one
    order, answered without an error and dispatched to that stock: a buy of 100 at the limit
    price of the metadata.  The system ids are 1, 2, 3, ... in the order of the answers.  A
    stock whose call is in progress has its order prepared. -/
theorem replay_orders (hp : p.Valid) (hd : day.Valid m p) (hw : Reachable p day w) :
    (w.rspOrders.map (·.1)).Nodup ∧
      (∀ id, InBounds p.stockCodes id →
        (id ∈ w.rspOrders.map (·.1) ↔ buys (w.program.effects id) = 1)) ∧
      (∀ (k : ℕ) (id : Int32) (rsp : RspOrder), w.rspOrders[k]? = some (id, rsp) →
        InBounds p.stockCodes id ∧
        rsp.orderSysId.toInt = k + 1 ∧ rsp.stockCode = codeOf p id ∧ rsp.errorId = 0 ∧
          rsp.orderQuantity = 100 ∧ rsp.orderDirection = 'B' ∧
            ∃ stat, Metadata.getStatic day.metadata (codeOf p id) = .ok stat ∧
              stat.stock = codeOf p id ∧ rsp.orderPrice = stat.upperLimitPrice) ∧
      ∀ id, w.program.checking id ≠ none → w.reqOrders id ≠ none := by
  have horders := hw.orders hp hd
  have hinv := hw.inv hp hd
  have hlen := hp.length
  refine ⟨horders.nodup, fun id hid => ?_, fun k id rsp hrsp => ?_, fun id hne => ?_⟩
  · have honce := (hw.program.requested hp hid).once
    rw [horders.bought id hid]
    omega
  · obtain ⟨hin, halive, hanswer⟩ := horders.answers k (id, rsp) hrsp
    obtain ⟨stat, hget, hstock, hprice, -⟩ := alive_watched halive
    have hk := horders.length_le
    have hlt := (List.getElem?_eq_some_iff.1 hrsp).1
    dsimp only at hin hanswer hget hstock hprice
    subst hanswer
    refine ⟨hin, ?_, stockCode_watched m day.metadata _, rfl, rfl, rfl, stat, hget, hstock, hprice⟩
    have hnat := MDD.toInt_ofNat (n := k + 1) (by omega)
    exact_mod_cast hnat
  · have hin := hinv.inBounds id hne
    obtain ⟨checking, hchecking⟩ := Option.ne_none_iff_exists'.1 hne
    have hmem := hinv.notMem ((hw.program.inv hp).receives hchecking).ne_statics id
    have halive := (hinv.tracks id hin).alive_of_checking hchecking
    rw [horders.prepared id hin hmem (((hinv.tracks id hin).kept hmem).alive halive)]
    simp

/-! ## An undisturbed call -/

omit [FactorScalar R] in
/-- An order is answered the same whatever the program does. -/
theorem sendBuyRequest_program (p : Setup R) (w : ReplayRun m R) (u : Program (.replay m) R)
    (id : Int32) (intent : WantCache.Intent) :
    ({ w with program := u } : ReplayRun m R).sendBuyRequest p id intent =
      (w.sendBuyRequest p id intent).map fun v => { v with program := u } := by
  rw [sendBuyRequest, sendBuyRequest]
  split_ifs
  · cases w.reqOrders id <;> rfl
  · rfl

/-- The remaining loads, with no step in between. -/
theorem Reachable.loads (hid : InBounds p.stockCodes id) : ∀ (n : ℕ) {w : ReplayRun m R}
    {checking : Checking}, checking.loaded + n = 16 → w.program.checking id = some checking →
      Reachable p day w → Reachable p day
        { w with program := w.program.setChecking id (some { checking with
          scan := (((List.finRange 16).drop checking.loaded).map
            (w.program.caches id).wantBuyTimestamp).foldl WantCache.Scan.next checking.scan
          loaded := 16 }) }
  | 0, w, ⟨timestamp, scan, loaded⟩, hn, hchecking, hw => by
    obtain rfl : loaded = 16 := hn
    rw [List.drop_eq_nil_of_le (by simp)]
    have hsame : w.program.setChecking id (some ⟨timestamp, scan, 16⟩) = w.program := by
      rw [Program.setChecking, ← hchecking, Function.update_eq_self]
    show Reachable p day { w with program := w.program.setChecking id (some ⟨timestamp, scan, 16⟩) }
    rw [hsame]
    exact hw
  | n + 1, w, checking, hn, hchecking, hw => by
    have hlt : checking.loaded < 16 := by omega
    have hnext := Reachable.loads hid n (by simp only; omega) (Function.update_self _ _ _)
      (hw.step (.load hlt hid hchecking))
    rw [System.drop_finRange hlt]
    simpa only [Program.setChecking, Function.update_idem, List.map_cons, List.foldl_cons]
      using hnext

/-- **A call of `onTick` with no step in between is one step**, with its order answered. -/
theorem Reachable.onTick (hw : Reachable p day w) {v : ReplayRun m R} {tick : L2.Tick} {c : Int32}
    (timestamp : ℤ) (hidle : w.Idle) (hat : w.At day tick) (hlookup : p.idOf (.replay m) tick = id)
    (hneg : id ≠ -1) (hid : InBounds p.stockCodes id) (hring : p.ring id = some c)
    (halive : (w.program.states id).alive)
    (hlimit : ((w.program.states id).limitUp (.replay m) tick).2 = some timestamp)
    (hfits : (w.program.rings c).length + 1 < kRingSize)
    (hsend : w.sendBuyRequest p id
      ((w.program.caches id).checkWantBuyAtTimestamp timestamp) = some v) :
    Reachable p day
      { v with
        program := w.program.emit id c ((w.program.states id).onTick (.replay m) false
          (w.program.caches id).checkWantBuyAtTimestamp tick) false
        i := w.i + 1 } := by
  have hcheck := hw.step (.check hidle hat hlookup hneg hid halive hlimit)
  have hloads := Reachable.loads hid 15 rfl (Function.update_self _ _ _) hcheck
  have hanswer := hloads.step (.answer (c := c) false hid hring (Function.update_self _ _ _) rfl
    ?_ ((sendBuyRequest_program p w _ id _).trans (congrArg _ hsend)))
  · rw [StockState.onTick_of_some halive hlimit]
    simpa [Program.emit, Program.setChecking, ← hidle id, WantCache.checkWantBuyAtTimestamp]
      using hanswer
  · have hs : ((w.program.states id).limitUp (.replay m) tick).1.alive := by
      rw [StockState.limitUp_alive]
      exact halive
    refine .inr ?_
    simp only [Program.setChecking, Function.update_self, StockState.onIntent_eq hs]
    split_ifs <;> simpa [pushed] using hfits

end

/-! ## A replay of two stocks -/

/-- A trade of the first stock near its limit price, and an order that is its limit-up tick;
    the second one is not in the metadata. -/
def limitUpTicks : List UInt8 :=
  FixedCodec.uint32.encodeList
    [600000, 93000000, 797, 100, 5, 6, 600000, 93000120, 803, 100, 8, 0]

def twoRowsDay : Day where
  metadata := some (("date,code".toList :: Metadata.twoRows.map (·.1.text)).flatMap (· ++ ['\n']))
  tickBuf := [⟨600000, 93000000, 797, 100, 5, 6⟩, ⟨600000, 93000120, 803, 100, 8, 0⟩]
  subscribedStocks := [601318, 600000]

theorem getStatic_twoRowsDay (stock : Int32) : Metadata.getStatic twoRowsDay.metadata stock =
    .ok (((Metadata.twoRows.map (·.2)).find? fun stat => stat.stock = stock).getD .zero) := by
  rw [twoRowsDay, Metadata.getStatic, Text.getlines_flatMap (by decide +kernel), List.tail_cons,
    Metadata.readLines_says Metadata.says_twoRows]
  rfl

theorem valid_twoRowsDay : twoRowsDay.Valid .SH Program.twoStocks where
  nodup := by decide
  served := List.forall_mem_cons.2 ⟨by decide, List.forall_mem_singleton.2 (by decide)⟩
  zero := by decide
  subscribed := List.Perm.swap _ _ _

theorem readReplayTicks_limitUpTicks :
    Replay.readReplayTicks (fun _ => 0) limitUpTicks = some twoRowsDay.tickBuf := by
  rw [Replay.readReplayTicks_eq (by decide)]
  have hticks : Replay.fileTicks limitUpTicks = twoRowsDay.tickBuf := by decide
  have hsorted : twoRowsDay.tickBuf = Replay.inTimeOrder twoRowsDay.tickBuf :=
    Replay.eq_inTimeOrder (by decide) fun _ => rfl
  rw [hticks, ← hsorted]

/-- A replay in which the trade has reached its compute, which has decided to buy. -/
theorem exists_replayed : ∃ w : ReplayRun .SH ℚ, Reachable Program.twoStocks twoRowsDay w ∧
    w.program.main = .startThreads 1 ∧ w.i = 1 ∧ w.program.overflowed 0 = false ∧
      w.program.handled 0 = [(⟨600000, 93000000, 797, 100, 5, 6⟩ : L2.Tick)] ∧
      w.Idle ∧ w.program.rings 0 = [] ∧
      w.program.states 0 = ⟨600000, 803, 730, true, 0, 0, 0, 0, 0⟩ ∧
      (w.program.caches 0).checkWantBuyAtTimestamp 93000120 = .WantBuy ∧
      w.reqOrders 0 = some ⟨600000, 803, 100, 'U', 'B'⟩ ∧ w.orderSysId = 1 ∧
      w.rspOrders = [] := by
  have hzero : InBounds Program.twoStocks.stockCodes 0 := ⟨by decide, by decide⟩
  have hchannel : (0 : Int32) ∈ MDD.channels Program.twoStocks.kChannelCount := by decide
  have hmissing : Metadata.getStatic twoRowsDay.metadata 601318 = .ok .zero :=
    getStatic_twoRowsDay 601318
  have hfound : Metadata.getStatic twoRowsDay.metadata 600000 =
      .ok ⟨⟨600000, 729, 730, 729, 803, 657⟩, 730, 729, 10000000⟩ := getStatic_twoRowsDay 600000
  have hstatics := (Reachable.init.step (p := Program.twoStocks) (m := .SH)
    (.dropStatic rfl rfl hmissing (by decide))).step
    (.handleStatic rfl rfl hfound rfl (by decide) hzero)
  have hcomputes := ((hstatics.step (.startReceive rfl rfl)).step
    (.main (by simp) (.startCompute (i := 0) rfl (by decide)))).step
    (.main (by simp) (.startCompute (i := 1) rfl (by decide)))
  have hthread := (hcomputes.step (.main (by simp) (.computesStarted rfl))).step
    (.main (by simp) (.startThread (c := 0) rfl (by decide)))
  have htick := hthread.step (@Step.tick .SH ℚ _ _ _ _ _ 0 0 (fun _ => .NotSure) false
    (fun _ => rfl) ⟨trivial, rfl⟩ rfl (by decide) hzero (by decide) (fun _ => rfl)
    (.inr (by decide)))
  have hclear := ((htick.step (.thread hchannel (.round rfl))).step
    (.thread hchannel (.clearApproach rfl))).step (.thread hchannel (.clearApproach rfl))
  have hfetch := (hclear.step (.thread hchannel (.cleared rfl))).step
    (.thread hchannel (.fetchSomeTicks (n := 1) rfl (by decide)))
  have hcheck := (((hfetch.step (.thread hchannel (.onTick rfl rfl (by decide) hzero rfl))).step
    (.thread hchannel (.wake rfl))).step (.thread hchannel (.checkApproach rfl))).step
    (.thread hchannel (.checkApproach rfl))
  have hselect := hcheck.step (.thread hchannel
    (@Program.ThreadStep.select _ _ _ _ _ _ [0] [0] rfl rfl))
  have hfirst := hselect.step (.thread hchannel (.first rfl rfl rfl))
  exact ⟨_, hfirst.step (.thread hchannel (.second rfl rfl)), rfl, rfl, rfl, rfl,
    fun _ => rfl, rfl, rfl, by decide +kernel, rfl, rfl, rfl⟩

theorem replay_run_limitUp : ∃ w : ReplayRun .SH ℚ, Reachable Program.twoStocks twoRowsDay w ∧
    w.program.handled 0 = [(⟨600000, 93000000, 797, 100, 5, 6⟩ : L2.Tick)] ∧
    ∃ (intent : WantCache.Intent) (alive : Bool) (n : ℕ) (d : StockCompute ℚ),
      let s := watched .SH twoRowsDay.metadata (codeOf Program.twoStocks 0)
      let own := ((Replay.inTimeOrder (Replay.fileTicks limitUpTicks)).take w.i).filter
        (·.stock = codeOf Program.twoStocks 0)
      let alone := s.run (.replay .SH) false (own.map (.tick · intent))
      w.program.handled 0 = (pushed alone.2).take n ∧
        (StockCompute.start {} { s with alive }).runTicks (.replay .SH)
          ((pushed alone.2).take n) = some d ∧
        (w.program.computes 0).settled = d.settled ∧
        (alive → s.alive) ∧ (alone.1.alive → alive) := by
  obtain ⟨w, hw, hmain, -, hover, hhandled, -⟩ := exists_replayed
  exact ⟨w, hw, hhandled, replay_run (c := 0) Program.valid_twoStocks valid_twoRowsDay (by decide)
    readReplayTicks_limitUpTicks hw ⟨by decide, by decide⟩ (by decide) hover
    (by rw [hmain]; trivial)⟩

/-- The limit-up tick follows, and the stock is bought. -/
theorem replay_orders_limitUp : ∃ w : ReplayRun .SH ℚ,
    Reachable Program.twoStocks twoRowsDay w ∧
    w.rspOrders = [(0, rspOrder 1 ⟨600000, 803, 100, 'U', 'B'⟩)] ∧
    (w.rspOrders.map (·.1)).Nodup ∧
      (∀ id, InBounds Program.twoStocks.stockCodes id →
        (id ∈ w.rspOrders.map (·.1) ↔ buys (w.program.effects id) = 1)) ∧
      (∀ (k : ℕ) (id : Int32) (rsp : RspOrder), w.rspOrders[k]? = some (id, rsp) →
        InBounds Program.twoStocks.stockCodes id ∧
        rsp.orderSysId.toInt = k + 1 ∧ rsp.stockCode = codeOf Program.twoStocks id ∧
          rsp.errorId = 0 ∧ rsp.orderQuantity = 100 ∧ rsp.orderDirection = 'B' ∧
            ∃ stat, Metadata.getStatic twoRowsDay.metadata (codeOf Program.twoStocks id) =
              .ok stat ∧ stat.stock = codeOf Program.twoStocks id ∧
              rsp.orderPrice = stat.upperLimitPrice) ∧
      ∀ id, w.program.checking id ≠ none → w.reqOrders id ≠ none := by
  obtain ⟨w, hw, hmain, hi, -, -, hidle, hring, hstate, hintent, hreq, hsys, hrsp⟩ :=
    exists_replayed
  have hzero : InBounds Program.twoStocks.stockCodes 0 := ⟨by decide, by decide⟩
  have hat : w.At twoRowsDay ⟨600000, 93000120, 803, 100, 8, 0⟩ :=
    ⟨by rw [hmain]; trivial, by rw [hi]; rfl⟩
  have hcall := hw.onTick (c := 0) 93000120 hidle hat (by decide) (by decide) hzero (by decide)
    (by rw [hstate]) (by rw [hstate]; rfl) (by rw [hring]; decide)
    (by rw [hintent, sendBuyRequest, if_pos rfl, hreq]; rfl)
  exact ⟨_, hcall, by simp [sendReqOrder, hrsp, hsys, rspOrder]; decide,
    replay_orders Program.valid_twoStocks valid_twoRowsDay hcall⟩

end ReplayRun

end Mdd2
