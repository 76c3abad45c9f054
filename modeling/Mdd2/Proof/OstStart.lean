/-
  The start of the OST builds, in every order of the steps of its two threads.

  The flag of the login is stored before the ids of the session; the main thread
  reads the ids only after both answers were counted, which no query precedes
  (`Inv.session`).  An answer is counted after its last record, so that nothing is
  appended once both are counted (`Inv.settled`).  Hence all records of both
  exchanges are published, and with the ids of the session (`statics_published`),
  and a stock is set up by the records of its own code (`statics_dispatched`).
-/
import Mdd2.OstStart
import Mdd2.Proof.Dispatch

namespace Mdd2

namespace OstStart

variable {market : Market} {stockCodes : List Int32} {server : Server}
  {states : Int32 → StockState} {w v : State}

/-- The records of an answer are of its exchange. -/
def Server.WellFormed (server : Server) : Prop :=
  ∀ e, ∀ r ∈ server.answer e, r.ExchangeID = some e

/-- The records of an exchange that have arrived. -/
def State.got (w : State) (e : Exchange) : List DepthMarketData :=
  w.g_marketStatics.filter (·.ExchangeID = some e)

/-- What has arrived, and what is still to come, is the answer. -/
def Query.Consistent (answer got : List DepthMarketData) : Query → Prop
  | unasked => got = []
  | answering rest => got ++ rest = answer
  | answered => got = answer
  | failed => True

def Query.count : Query → ℕ
  | answered => 1
  | unasked | answering _ | failed => 0

theorem Query.count_le (q : Query) : q.count ≤ 1 := by
  cases q <;> simp [count]

theorem Query.eq_answered {q : Query} (h : q.count = 1) : q = answered := by
  cases q <;> simp [count] at h ⊢

/-- The records that are still to be published, once the main thread publishes. -/
def Main.rest : Main → Option (List DepthMarketData)
  | publish rest => some rest
  | started => some []
  | waitLogin | waitStatics => none

/-! ## The callbacks -/

/-- What holds of the thread of the API. -/
structure CallbackInv (server : Server) (w : State) : Prop where
  login : w.loggedIn = false → w.spi = .idle ∧ ∀ e, w.queries e = .unasked
  opening : w.spi = .loginStored ∨ w.spi = .frontStored ∨ w.spi = .sessionStored →
    ∀ e, w.queries e = .unasked
  asking : w.spi = .queried → w.queries .SZSE = .unasked
  front : w.spi = .frontStored → w.m_frontID = server.frontID
  session : w.spi = .sessionStored ∨ w.spi = .queried ∨ (∃ e, w.queries e ≠ .unasked) →
    w.m_frontID = server.frontID ∧ w.m_sessionID = server.sessionID
  consistent : ∀ e, (w.queries e).Consistent (server.answer e) (w.got e)
  exchanges : ∀ r ∈ w.g_marketStatics, r.ExchangeID.isSome
  counted : w.g_staticOK + (if w.spi = .counting then 1 else 0) =
    (w.queries .SSE).count + (w.queries .SZSE).count

/-- Both answers are counted. -/
structure Settled (w : State) : Prop where
  answered : ∀ e, w.queries e = .answered
  spi : w.spi ≠ .counting

theorem CallbackInv.settled (h : CallbackInv server w) (hok : 2 ≤ w.g_staticOK) : Settled w := by
  have hcounted := h.counted
  have hSSE := (w.queries .SSE).count_le
  have hSZSE := (w.queries .SZSE).count_le
  refine ⟨?_, fun hspi => ?_⟩
  · rintro (_ | _)
    · exact Query.eq_answered (by omega)
    · exact Query.eq_answered (by omega)
  · rw [if_pos hspi] at hcounted
    omega

/-- The ids of the session are there before the first record. -/
theorem CallbackInv.ids (h : CallbackInv server w) (hok : 2 ≤ w.g_staticOK) :
    w.m_frontID = server.frontID ∧ w.m_sessionID = server.sessionID := by
  refine h.session (.inr (.inr ⟨.SSE, ?_⟩))
  rw [(h.settled hok).answered]
  simp

theorem callbackInv_init (server : Server) (states : Int32 → StockState) :
    CallbackInv server (init states) := by
  constructor <;> simp [init, State.got, Query.Consistent, Query.count]

theorem State.answer_eq {e e' : Exchange} {r : DepthMarketData} (hr : r.ExchangeID = some e')
    (rest : List DepthMarketData) : w.answer e r rest = { w with
      queries := Function.update w.queries e (if rest = [] then .answered else .answering rest)
      g_marketStatics := w.g_marketStatics ++ [r]
      spi := if rest = [] then .counting else .idle } := by
  rw [State.answer, if_neg (by rw [hr]; simp)]

theorem got_append {e : Exchange} {r : DepthMarketData} (hr : r.ExchangeID = some e)
    (statics : List DepthMarketData) (e' : Exchange) :
    (statics ++ [r]).filter (·.ExchangeID = some e') =
      statics.filter (·.ExchangeID = some e') ++ if e = e' then [r] else [] := by
  simp only [List.filter_append, List.filter_singleton, hr, Option.some.injEq]
  split_ifs <;> simp_all

/-- An answer is complete when its last record arrives. -/
theorem count_update {queries : Exchange → Query} {e : Exchange}
    (he : (queries e).count = 0) (q : Query) :
    (Function.update queries e q .SSE).count + (Function.update queries e q .SZSE).count =
      (queries .SSE).count + (queries .SZSE).count + q.count := by
  rcases e with _ | _
  · rw [Function.update_self, Function.update_of_ne (by simp)]
    omega
  · rw [Function.update_self, Function.update_of_ne (by simp)]
    omega

/-- A record arrives. -/
theorem CallbackInv.answer (h : CallbackInv server w) (hserver : server.WellFormed) {e : Exchange}
    {r : DepthMarketData} {rest : List DepthMarketData} (hspi : w.spi = .idle)
    (hquery : w.queries e = .answering (r :: rest)) : CallbackInv server (w.answer e r rest) := by
  have hconsistent := h.consistent e
  rw [hquery] at hconsistent
  have hr : r.ExchangeID = some e := by
    refine hserver e r ?_
    rw [← hconsistent]
    simp
  have hlogged : w.loggedIn ≠ false := fun hlogin => by
    have hunasked := (h.login hlogin).2 e
    rw [hquery] at hunasked
    cases hunasked
  have hids := h.session (.inr (.inr ⟨e, by rw [hquery]; simp⟩))
  have hcounted := h.counted
  rw [hspi] at hcounted
  rw [State.answer_eq hr]
  refine ⟨fun hlogin => absurd hlogin hlogged, ?_, ?_, ?_, fun _ => hids, fun e' => ?_, ?_, ?_⟩
  · dsimp only
    split_ifs <;> simp
  · dsimp only
    split_ifs <;> simp
  · dsimp only
    split_ifs <;> simp
  · rw [State.got, got_append hr]
    dsimp only
    by_cases he : e = e'
    · subst he
      rw [if_pos rfl, Function.update_self, ← hconsistent]
      split_ifs with hrest
      · rw [hrest]
        rfl
      · simp [Query.Consistent, State.got]
    · rw [if_neg he, List.append_nil, Function.update_of_ne (Ne.symm he)]
      exact h.consistent e'
  · rintro s hs
    rcases List.mem_append.1 hs with hs | hs
    · exact h.exchanges s hs
    · rw [List.mem_singleton.1 hs, hr]
      rfl
  · dsimp only
    rw [count_update (by rw [hquery]; rfl)]
    simp only [reduceCtorEq, if_false] at hcounted
    split_ifs <;> simp_all [Query.count]

/-- A query is made, before anything of its answer has arrived. -/
theorem CallbackInv.consistent_query (h : CallbackInv server w) {e : Exchange}
    (hunasked : w.queries e = .unasked) (e' : Exchange) :
    (Function.update w.queries e (.answering (server.answer e)) e').Consistent (server.answer e')
      (w.got e') := by
  by_cases he : e' = e
  · subst he
    have hgot := h.consistent e'
    rw [hunasked] at hgot
    rw [Function.update_self, hgot]
    exact List.nil_append _
  · rw [Function.update_of_ne he]
    exact h.consistent e'

/-- In a callback, the login was answered. -/
theorem CallbackInv.logged (h : CallbackInv server w) (hspi : w.spi ≠ .idle) :
    w.loggedIn ≠ false := fun hlogged => hspi (h.login hlogged).1

theorem CallbackInv.step (h : CallbackInv server w) (hserver : server.WellFormed)
    (hs : CallbackStep server w v) : CallbackInv server v := by
  have hlogged := h.logged
  have hquery := @h.consistent_query
  have hcounted := h.counted
  have hunasked : (∀ e, w.queries e = .unasked) → ¬∃ e, w.queries e ≠ .unasked :=
    fun hall ⟨e, he⟩ => he (hall e)
  cases hs with
  | loginError hspi hnot =>
    exact ⟨by simp, h.opening, h.asking, h.front, h.session, h.consistent, h.exchanges, hcounted⟩
  | login hspi hnot =>
    have hall := (h.login hnot).2
    rw [hspi] at hcounted
    refine ⟨by simp, fun _ => hall, by simp, by simp, ?_, h.consistent, h.exchanges, hcounted⟩
    rintro (hspi' | hspi' | hask)
    · exact absurd hspi' (by simp)
    · exact absurd hspi' (by simp)
    · exact absurd hask (hunasked hall)
  | storeFront hspi =>
    have hall := h.opening (.inl hspi)
    rw [hspi] at hlogged hcounted
    refine ⟨fun hnot => absurd hnot (hlogged (by simp)), fun _ => hall, by simp, fun _ => rfl, ?_,
      h.consistent, h.exchanges, hcounted⟩
    rintro (hspi' | hspi' | hask)
    · exact absurd hspi' (by simp)
    · exact absurd hspi' (by simp)
    · exact absurd hask (hunasked hall)
  | storeSession hspi =>
    have hall := h.opening (.inr (.inl hspi))
    have hfront := h.front hspi
    rw [hspi] at hlogged hcounted
    exact ⟨fun hnot => absurd hnot (hlogged (by simp)), fun _ => hall, by simp, by simp,
      fun _ => ⟨hfront, rfl⟩, h.consistent, h.exchanges, hcounted⟩
  | querySSE hspi =>
    have hall := h.opening (.inr (.inr hspi))
    have hsession := h.session (.inl hspi)
    rw [hspi] at hlogged hcounted
    refine ⟨fun hnot => absurd hnot (hlogged (by simp)), by simp, fun _ => hall _, by simp,
      fun _ => hsession, hquery (hall _), h.exchanges, ?_⟩
    rw [count_update (by rw [hall]; rfl)]
    exact hcounted
  | querySSEError hspi =>
    have hall := h.opening (.inr (.inr hspi))
    rw [hspi] at hlogged hcounted
    refine ⟨fun hnot => absurd hnot (hlogged (by simp)), by simp, by simp, by simp, ?_,
      h.consistent, h.exchanges, hcounted⟩
    rintro (hspi' | hspi' | hask)
    · exact absurd hspi' (by simp)
    · exact absurd hspi' (by simp)
    · exact absurd hask (hunasked hall)
  | querySZSE hspi =>
    have hSZSE := h.asking hspi
    have hsession := h.session (.inr (.inl hspi))
    rw [hspi] at hlogged hcounted
    refine ⟨fun hnot => absurd hnot (hlogged (by simp)), by simp, by simp, by simp,
      fun _ => hsession, hquery hSZSE, h.exchanges, ?_⟩
    rw [count_update (by rw [hSZSE]; rfl)]
    exact hcounted
  | querySZSEError hspi =>
    rw [hspi] at hlogged hcounted
    refine ⟨fun hnot => absurd hnot (hlogged (by simp)), by simp, by simp, by simp, ?_,
      h.consistent, h.exchanges, hcounted⟩
    rintro (hspi' | hspi' | hask)
    · exact absurd hspi' (by simp)
    · exact absurd hspi' (by simp)
    · exact h.session (.inr (.inr hask))
  | answer hspi hanswering => exact h.answer hserver hspi hanswering
  | count hspi =>
    rw [hspi] at hlogged hcounted
    refine ⟨fun hnot => absurd hnot (hlogged (by simp)), by simp, by simp, by simp, ?_,
      h.consistent, h.exchanges, hcounted⟩
    rintro (hspi' | hspi' | hask)
    · exact absurd hspi' (by simp)
    · exact absurd hspi' (by simp)
    · exact h.session (.inr (.inr hask))
  | @answerError e rest hspi hanswering =>
    have hsession := h.session (.inr (.inr ⟨e, by rw [hanswering]; simp⟩))
    refine ⟨fun hnot => ?_, ?_, ?_, ?_, fun _ => hsession, fun e' => ?_, h.exchanges, ?_⟩
    · have hall := (h.login hnot).2 e
      rw [hanswering] at hall
      cases hall
    · simp [hspi]
    · simp [hspi]
    · simp [hspi]
    · by_cases he : e' = e
      · subst he
        dsimp only
        rw [Function.update_self]
        trivial
      · dsimp only
        rw [Function.update_of_ne he]
        exact h.consistent e'
    · dsimp only
      rw [count_update (by rw [hanswering]; rfl)]
      exact hcounted

/-! ## The main thread -/

/-- The stock that a record goes to. -/
def idOf (market : Market) (stockCodes : List Int32) (r : DepthMarketData) : Int32 :=
  lookupStockId market stockCodes r.stat.stock

/-- What holds of both threads. -/
structure Inv (market : Market) (stockCodes : List Int32) (server : Server)
    (states : Int32 → StockState) (w : State) : Prop where
  callbacks : CallbackInv server w
  waiting : w.main.rest = none → w.published = []
  publishing : ∀ rest, w.main.rest = some rest →
    w.published ++ rest = w.g_marketStatics ∧ 2 ≤ w.g_staticOK
  cancels : ∀ id ids, w.cancels id = some ids → ids = (server.frontID, server.sessionID)
  states : ∀ id, id ≠ -1 → w.states id =
    ((w.published.filter (idOf market stockCodes · = id)).map (·.stat)).foldl
      (StockState.onStatic (.ost market)) (states id)

/-- The callbacks change nothing that the main thread has, and no record once it publishes. -/
theorem CallbackStep.frame (hs : CallbackStep server w v) (hinv : CallbackInv server w) :
    v.main = w.main ∧ v.published = w.published ∧ v.cancels = w.cancels ∧ v.states = w.states ∧
      (2 ≤ w.g_staticOK → v.g_marketStatics = w.g_marketStatics ∧ v.g_staticOK = w.g_staticOK) := by
  cases hs with
  | @answer e r rest hspi hquery =>
    refine ⟨?_, ?_, ?_, ?_, fun hok => ?_⟩
    · unfold State.answer; split_ifs <;> rfl
    · unfold State.answer; split_ifs <;> rfl
    · unfold State.answer; split_ifs <;> rfl
    · unfold State.answer; split_ifs <;> rfl
    · have hanswered := (hinv.settled hok).answered e
      rw [hquery] at hanswered
      cases hanswered
  | count hspi => exact ⟨rfl, rfl, rfl, rfl, fun hok => absurd hspi (hinv.settled hok).spi⟩
  | _ => exact ⟨rfl, rfl, rfl, rfl, fun _ => ⟨rfl, rfl⟩⟩

theorem inv_init (server : Server) (states : Int32 → StockState) :
    Inv market stockCodes server states (init states) where
  callbacks := callbackInv_init server states
  waiting _ := rfl
  publishing rest h := absurd h (by simp [init, Main.rest])
  cancels id ids h := absurd h (by simp [init])
  states id _ := rfl

theorem Inv.callback (h : Inv market stockCodes server states w) (hserver : server.WellFormed)
    (hs : CallbackStep server w v) : Inv market stockCodes server states v := by
  obtain ⟨hmain, hpublished, hcancels, hstates, hsettled⟩ := hs.frame h.callbacks
  refine ⟨h.callbacks.step hserver hs, ?_, ?_, ?_, ?_⟩
  · rw [hmain, hpublished]
    exact h.waiting
  · rintro rest hrest
    rw [hmain] at hrest
    obtain ⟨heq, hok⟩ := h.publishing rest hrest
    obtain ⟨hstatics, hcount⟩ := hsettled hok
    rw [hpublished, hstatics, hcount]
    exact ⟨heq, hok⟩
  · rw [hcancels]
    exact h.cancels
  · rw [hpublished, hstates]
    exact h.states

/-- The main thread changes nothing that the callbacks have. -/
theorem CallbackInv.setMain (h : CallbackInv server w) (main : Main)
    (states : Int32 → StockState) (cancels : Int32 → Option (ℤ × ℤ))
    (published : List DepthMarketData) : CallbackInv server { w with
      main := main
      states := states
      cancels := cancels
      published := published } :=
  ⟨h.login, h.opening, h.asking, h.front, h.session, h.consistent, h.exchanges, h.counted⟩

/-- A record is published: its stock is set up, and gets the ids of the session. -/
theorem Inv.handleStatic (h : Inv market stockCodes server states w) {r : DepthMarketData}
    {rest : List DepthMarketData} (hmain : w.main = .publish (r :: rest)) :
    Inv market stockCodes server states { w.handleStatic market stockCodes r with
      main := .publish rest
      published := w.published ++ [r] } := by
  obtain ⟨heq, hok⟩ := h.publishing (r :: rest) (by rw [hmain]; rfl)
  obtain ⟨hfront, hsession⟩ := h.callbacks.ids hok
  have hcancels := h.cancels
  have hstates := h.states
  have hpublishing : w.published ++ [r] ++ rest = w.g_marketStatics := by
    rw [← heq, List.append_assoc]
    rfl
  by_cases hid : lookupStockId market stockCodes r.stat.stock = -1
  · rw [State.handleStatic, if_pos hid]
    refine ⟨h.callbacks.setMain _ _ _ _, fun hrest => absurd hrest (by simp [Main.rest]), ?_,
      hcancels, fun id hne => ?_⟩
    · rintro _ ⟨⟩
      exact ⟨hpublishing, hok⟩
    · have hother : idOf market stockCodes r ≠ id := fun he => hne (he.symm.trans hid)
      rw [List.filter_append, List.filter_singleton, decide_eq_false hother, cond_false,
        List.append_nil]
      exact hstates id hne
  · rw [State.handleStatic, if_neg hid]
    refine ⟨h.callbacks.setMain _ _ _ _, fun hrest => absurd hrest (by simp [Main.rest]), ?_,
      fun id ids hids => ?_, fun id hne => ?_⟩
    · rintro _ ⟨⟩
      exact ⟨hpublishing, hok⟩
    · dsimp only at hids
      by_cases he : id = lookupStockId market stockCodes r.stat.stock
      · rw [he, Function.update_self] at hids
        split_ifs at hids
        · exact hcancels _ _ hids
        · rw [← Option.some.inj hids, hfront, hsession]
      · rw [Function.update_of_ne he] at hids
        exact hcancels _ _ hids
    · rw [List.filter_append, List.filter_singleton]
      dsimp only
      by_cases he : idOf market stockCodes r = id
      · rw [decide_eq_true he, cond_true, List.map_append, List.foldl_append, ← hstates id hne,
          ← he]
        simp only [idOf, Function.update_self]
        rfl
      · rw [decide_eq_false he, cond_false, List.append_nil,
          Function.update_of_ne (fun h' : id = lookupStockId _ _ _ => he h'.symm)]
        exact hstates id hne

theorem Inv.main (h : Inv market stockCodes server states w)
    (hs : MainStep market stockCodes w v) : Inv market stockCodes server states v := by
  have hcallbacks := h.callbacks.setMain
  cases hs with
  | isStarted hmain hok =>
    exact ⟨hcallbacks _ _ _ _, fun _ => h.waiting (by rw [hmain]; rfl),
      fun _ hrest => absurd hrest (by simp [Main.rest]), h.cancels, h.states⟩
  | getDepthMarketData hmain hok =>
    have hpublished := h.waiting (by rw [hmain]; rfl)
    refine ⟨hcallbacks _ _ _ _, fun hrest => absurd hrest (by simp [Main.rest]), ?_, h.cancels,
      h.states⟩
    rintro _ ⟨⟩
    dsimp only
    rw [hpublished]
    exact ⟨rfl, hok⟩
  | handleStatic hmain => exact h.handleStatic hmain
  | ostStart hmain =>
    refine ⟨hcallbacks _ _ _ _, fun hrest => absurd hrest (by simp [Main.rest]), ?_, h.cancels,
      h.states⟩
    rintro _ ⟨⟩
    exact h.publishing [] (by rw [hmain]; rfl)

theorem Reachable.inv (hw : Reachable market stockCodes server states w)
    (hserver : server.WellFormed) : Inv market stockCodes server states w := by
  induction hw with
  | init => exact inv_init server states
  | callback _ hs ih => exact ih.callback hserver hs
  | main _ hs ih => exact ih.main hs

/-! ## What is published -/

/-- **All records of both exchanges are published.**  Once the main thread publishes, in any
    order of the steps of both threads, both answers are complete, each in its order;
    nothing is appended behind its back; and the ids that the cancel requests of the stocks
    are given are those of the session, although the login is flagged before they are
    stored. -/
theorem statics_published (hserver : server.WellFormed)
    (hw : Reachable market stockCodes server states w) {rest : List DepthMarketData}
    (hrest : w.main.rest = some rest) :
    w.published ++ rest = w.g_marketStatics ∧ (∀ e, w.got e = server.answer e) ∧
      (∀ r ∈ w.g_marketStatics, r.ExchangeID.isSome) ∧
      (∀ v, CallbackStep server w v → v.g_marketStatics = w.g_marketStatics) ∧
      w.m_frontID = server.frontID ∧ w.m_sessionID = server.sessionID ∧
      ∀ id ids, w.cancels id = some ids → ids = (server.frontID, server.sessionID) := by
  have hinv := hw.inv hserver
  obtain ⟨heq, hok⟩ := hinv.publishing rest hrest
  obtain ⟨hfront, hsession⟩ := hinv.callbacks.ids hok
  refine ⟨heq, fun e => ?_, hinv.callbacks.exchanges, fun v hs => ?_, hfront, hsession,
    hinv.cancels⟩
  · have hconsistent := hinv.callbacks.consistent e
    rwa [(hinv.callbacks.settled hok).answered e] at hconsistent
  · obtain ⟨-, -, -, -, hsettled⟩ := hs.frame hinv.callbacks
    exact (hsettled hok).1

theorem idOf_eq_iff (hnodup : stockCodes.Nodup) (hserved : ∀ code ∈ stockCodes, Served market code)
    {i : ℕ} (hi : i < stockCodes.length) {id : Int32} (hid : id.toInt = i) (r : DepthMarketData) :
    idOf market stockCodes r = id ↔ r.stat.stock = stockCodes[i] := by
  constructor
  · rintro rfl
    by_cases hmem : r.stat.stock ∈ stockCodes
    · obtain ⟨j, hj, hcode⟩ := List.mem_iff_getElem.1 hmem
      have hlookup := lookupStockId_of_mem hnodup hserved hj
      rw [hcode] at hlookup
      obtain rfl : j = i := by
        rw [idOf, hlookup] at hid
        exact_mod_cast hid
      exact hcode.symm
    · rw [idOf, lookupStockId_of_notMem hserved hmem] at hid
      exact absurd hid (by simp)
  · rintro hcode
    rw [idOf, hcode]
    exact Int32.toInt_inj.1 ((lookupStockId_of_mem hnodup hserved hi).trans hid.symm)

/-- A record that is the only one of its code is the only one that is left, in whatever order
    the answers came. -/
theorem filter_eq_singleton {statics : List DepthMarketData} {p : DepthMarketData → Bool}
    {e e' : Exchange} {r : DepthMarketData} (he : e ≠ e')
    (hsome : ∀ s ∈ statics, s.ExchangeID.isSome)
    (hone : (statics.filter (·.ExchangeID = some e)).filter p = [r])
    (hnone : (statics.filter (·.ExchangeID = some e')).filter p = []) :
    statics.filter p = [r] := by
  have hall : (statics.filter p).filter (·.ExchangeID = some e) = statics.filter p := by
    refine List.filter_eq_self.2 fun s hs => ?_
    obtain ⟨hmem, hp⟩ := List.mem_filter.1 hs
    obtain ⟨x, hx⟩ := Option.isSome_iff_exists.1 (hsome s hmem)
    by_contra hne
    have hx' : x = e' := by
      rcases x with _ | _ <;> rcases e with _ | _ <;> rcases e' with _ | _ <;> simp_all
    have hin : s ∈ (statics.filter (·.ExchangeID = some e')).filter p :=
      List.mem_filter.2 ⟨List.mem_filter.2 ⟨hmem, by simp [hx, hx']⟩, hp⟩
    rw [hnone] at hin
    exact absurd hin List.not_mem_nil
  rw [← hall, List.filter_comm, hone]

/-- **A stock is set up by the records of its own code**, in the order of their arrival; if
    the answers have one such record, the stock is what this record makes it, in every
    order of the steps. -/
theorem statics_dispatched (hserver : server.WellFormed)
    (hw : Reachable market stockCodes server states w) (hmain : w.main = .started)
    (hnodup : stockCodes.Nodup) (hserved : ∀ code ∈ stockCodes, Served market code) {i : ℕ}
    (hi : i < stockCodes.length) {id : Int32} (hid : id.toInt = i) :
    let own := fun r : DepthMarketData => decide (r.stat.stock = stockCodes[i])
    w.states id = ((w.g_marketStatics.filter own).map (·.stat)).foldl
        (StockState.onStatic (.ost market)) (states id) ∧
      ∀ e e' r, e ≠ e' → (server.answer e).filter own = [r] → (server.answer e').filter own = [] →
        w.states id = (states id).onStatic (.ost market) r.stat := by
  have hinv := hw.inv hserver
  have hrest : w.main.rest = some [] := by rw [hmain]; rfl
  obtain ⟨heq, hok⟩ := hinv.publishing [] hrest
  rw [List.append_nil] at heq
  have hne : id ≠ -1 := by
    rintro rfl
    exact absurd hid (by simp)
  have hstates := hinv.states id hne
  rw [heq] at hstates
  simp only [idOf_eq_iff hnodup hserved hi hid] at hstates
  refine ⟨hstates, fun e e' r he hone hnone => ?_⟩
  have hgot : ∀ x, w.got x = server.answer x := fun x => by
    have hconsistent := hinv.callbacks.consistent x
    rwa [(hinv.callbacks.settled hok).answered x] at hconsistent
  rw [hstates, filter_eq_singleton he hinv.callbacks.exchanges (by rw [← hone, ← hgot]; rfl)
    (by rw [← hnone, ← hgot]; rfl)]
  rfl

/-- One instrument on each exchange. -/
def twoStatics : Server where
  frontID := 3
  sessionID := 4
  answer
    | .SSE => [⟨some .SSE, 600000, .SH, 1000, 1100, 20250722⟩]
    | .SZSE => [⟨some .SZSE, 1, .SZ, 900, 990, 20250722⟩]

theorem twoStatics_wellFormed : twoStatics.WellFormed := by
  rintro (_ | _) r hr
  · rw [List.mem_singleton.1 hr]
  · rw [List.mem_singleton.1 hr]

/-- A run in which the main thread sees the login before the ids of the session. -/
theorem exists_started : ∃ w : State,
    Reachable .SH [600000] twoStatics (fun _ => .start 600000) w ∧ w.main = .started ∧
      w.cancels 0 = some (3, 4) := by
  have hinit := @Reachable.init .SH [600000] twoStatics fun _ => .start 600000
  have hlogin := (hinit.callback (.login rfl rfl)).main (.isStarted rfl rfl)
  have hids := (hlogin.callback (.storeFront rfl)).callback (.storeSession rfl)
  have hqueries := (hids.callback (.querySSE rfl)).callback (.querySZSE rfl)
  have hSZSE := (hqueries.callback (@CallbackStep.answer _ _ .SZSE _ _ rfl rfl)).callback
    (.count rfl)
  have hSSE := (hSZSE.callback (@CallbackStep.answer _ _ .SSE _ _ rfl rfl)).callback (.count rfl)
  have hpublish := ((hSSE.main (.getDepthMarketData rfl (by decide))).main
    (.handleStatic rfl)).main (.handleStatic rfl)
  exact ⟨_, hpublish.main (.ostStart rfl), rfl, rfl⟩

theorem statics_published_two : ∃ w : State, w.cancels 0 = some (3, 4) ∧
    w.published ++ [] = w.g_marketStatics ∧ (∀ e, w.got e = twoStatics.answer e) ∧
      (∀ r ∈ w.g_marketStatics, r.ExchangeID.isSome) ∧
      (∀ v, CallbackStep twoStatics w v → v.g_marketStatics = w.g_marketStatics) ∧
      w.m_frontID = 3 ∧ w.m_sessionID = 4 ∧ ∀ id ids, w.cancels id = some ids → ids = (3, 4) := by
  obtain ⟨w, hw, hmain, hcancels⟩ := exists_started
  exact ⟨w, hcancels, statics_published twoStatics_wellFormed hw (by rw [hmain]; rfl)⟩

theorem statics_dispatched_two : ∃ w : State,
    Reachable .SH [600000] twoStatics (fun _ => .start 600000) w ∧ w.main = .started ∧
      let own := fun r : DepthMarketData => decide (r.stat.stock = 600000)
      w.states 0 = ((w.g_marketStatics.filter own).map (·.stat)).foldl
          (StockState.onStatic (.ost .SH)) (.start 600000) ∧
        ∀ e e' r, e ≠ e' → (twoStatics.answer e).filter own = [r] →
          (twoStatics.answer e').filter own = [] →
          w.states 0 = (StockState.start 600000).onStatic (.ost .SH) r.stat := by
  obtain ⟨w, hw, hmain, -⟩ := exists_started
  have hserved : ∀ code ∈ [(600000 : Int32)], Served .SH code := fun code hcode => by
    rw [List.mem_singleton.1 hcode]
    exact ⟨by decide, by decide⟩
  have hzero : Int32.toInt 0 = (0 : ℕ) := rfl
  exact ⟨w, hw, hmain, statics_dispatched twoStatics_wellFormed hw hmain (List.nodup_singleton _)
    hserved Nat.one_pos hzero⟩

end OstStart

end Mdd2
