/-
  Responses of the broker, and the stocks they are for.

  An order is recorded after it is handed to the API, so that a response may come
  before.  It is then looked up as `-1`, which no table of served codes knows.  A
  response may also come while the record of another order moves the table.

  * `Inv` holds along a run that takes fewer than `2 ^ 31` request ids;
  * `dispatched_iff`: every response of a run reaches the stock of its order if and
    only if none overtakes the record of its order, and none comes to a table that
    is being moved, or was while another thread wrote to it.
-/
import Mdd2.OES
import Mdd2.Lib.Run
import Mdd2.Proof.Dispatch

namespace Mdd2

namespace OrderRefLut

theorem maxSize_gt {n : ℕ} (h : n < 2 ^ 31) : ¬ n ≥ maxSize := by
  have : maxSize = 2305843009213693951 := by decide
  omega

theorem getElem?_resize (lut : List UInt32) (size n : ℕ) (h : n < size) :
    (resize lut size)[n]? = some ((lut[n]?).getD (-1)) := by
  rw [resize, List.getElem?_append, List.getElem?_replicate]
  split_ifs with h1 h2
  · rw [List.getElem?_eq_getElem h1, Option.getD_some]
  · rw [List.getElem?_eq_none (by omega), Option.getD_none]
  · omega

theorem orderRefLookup_eq (t : OrderRefLut) (n : ℕ) :
    t.orderRefLookup n = (t.m_orderRefLut[n]?).getD (-1) := by
  rw [orderRefLookup]
  split_ifs with h
  · rw [List.getElem?_eq_getElem h, Option.getD_some]
  · rw [List.getElem?_eq_none (by omega), Option.getD_none]

theorem getD_set (l : List UInt32) {n : ℕ} (hn : n < l.length) (u : UInt32) (k : ℕ) :
    ((l.set n u)[k]?).getD (-1) = if k = n then u else (l[k]?).getD (-1) := by
  rw [List.getElem?_set]
  rcases eq_or_ne n k with rfl | hne
  · rw [if_pos rfl, if_pos rfl, if_pos hn, Option.getD_some]
  · rw [if_neg hne, if_neg hne.symm]

/-- **A recorded id is looked up as what was recorded, and others as before.** -/
theorem orderRefLookup_setOrderRef (t : OrderRefLut) {n : ℕ} (hn : n < 2 ^ 31) (u : UInt32)
    (k : ℕ) : (t.setOrderRef n u).orderRefLookup k = if k = n then u else t.orderRefLookup k := by
  rw [orderRefLookup_eq, orderRefLookup_eq, setOrderRef]
  by_cases hlen : n ≥ t.m_orderRefLut.length
  · have hsize : (resize t.m_orderRefLut (n + 1)).length = n + 1 := by
      rw [resize, List.length_append, List.length_replicate]
      omega
    rw [if_pos hlen, if_neg (maxSize_gt hn), getD_set _ (by omega)]
    congr 1
    rcases lt_or_ge k (n + 1) with hk | hk
    · rw [getElem?_resize _ _ _ hk, Option.getD_some]
    · rw [List.getElem?_eq_none (by omega), List.getElem?_eq_none (by omega)]
  · rw [if_neg hlen, getD_set _ (by omega)]

end OrderRefLut

variable {market : Market} {stockCodes : List Int32}

theorem handleRspOrder_of_mem (hnodup : stockCodes.Nodup)
    (hserved : ∀ code ∈ stockCodes, Served market code) {i : ℕ} (hi : i < stockCodes.length) :
    (handleRspOrder market stockCodes stockCodes[i].toUInt32).map Int32.toInt = some (i : ℤ) := by
  have hid := lookupStockId_of_mem hnodup hserved hi
  have hne : lookupStockId market stockCodes stockCodes[i] ≠ -1 := by
    intro h
    rw [h] at hid
    exact absurd hid (by have : (-1 : Int32).toInt = -1 := rfl; omega)
  rw [handleRspOrder, Int32.toInt32_toUInt32]
  rw [if_neg hne, Option.map_some, hid]

theorem not_served_neg_one (market : Market) : ¬ Served market (-1) := by
  cases market <;> decide

/-- A response to an id that is not recorded is dropped. -/
theorem handleRspOrder_neg_one (hserved : ∀ code ∈ stockCodes, Served market code) :
    handleRspOrder market stockCodes (-1) = none :=
  if_pos (lookupStockId_of_notMem hserved fun h => not_served_neg_one market (hserved _ h))

namespace OES

/-- The response reaches the stock that sent the order. -/
def Dispatched (market : Market) (stockCodes : List Int32) (api : Api) (w : State) :
    Event → Prop
  | .respond req rsp => ∃ (i : ℕ) (hi : i < stockCodes.length),
      req.reqOrder.userLocalID = stockCodes[i].toUInt32 ∧
      ((w.userLocalID api rsp).bind (handleRspOrder market stockCodes)).map Int32.toInt =
        some (i : ℤ)
  | _ => True

/-- The call that handed the order over has recorded it. -/
def State.NotOvertaking (w : State) (req : Request) : Prop :=
  ∀ k c, w.calls k = some c → c.phase ≠ .taken → c.toRequest ≠ req

/-- The response comes after the record of its order, and to a stable table. -/
def Undisturbed (w : State) : Event → Prop
  | .respond req _ => w.NotOvertaking req ∧ w.Stable
  | _ => True

/-- The id of a request taken so far. -/
def Taken (w : State) (requestID : Int32) : Prop :=
  0 ≤ requestID.toInt ∧ requestID.toInt < w.requestID.toNat

/-- The request is of a configured stock, and the id is in it. -/
def Request.Valid (api : Api) (stockCodes : List Int32) (q : Request) : Prop :=
  q.reqOrder.userLocalID ∈ stockCodes.map Int32.toUInt32 ∧
    (api = .ost → q.reqOrder.orderRef = q.requestID)

structure Inv (api : Api) (stockCodes : List Int32) (w : State) : Prop where
  fresh : ∀ n, w.requestID.toNat ≤ n → w.orderRefLut.orderRefLookup n = -1
  call_taken : ∀ k c, w.calls k = some c → Taken w c.requestID
  call_valid : ∀ k c, w.calls k = some c → c.toRequest.Valid api stockCodes
  call_unrecorded : ∀ k c, w.calls k = some c →
    w.orderRefLut.orderRefLookup (sizeT c.requestID) = -1
  call_inj : ∀ k k' c c', w.calls k = some c → w.calls k' = some c' →
    c.requestID = c'.requestID → k = k'
  handed_taken : ∀ q ∈ w.handed, Taken w q.requestID
  handed_valid : ∀ q ∈ w.handed, q.Valid api stockCodes
  handed : ∀ q ∈ w.handed,
    (∃ k c, w.calls k = some c ∧ c.phase ≠ .taken ∧ c.toRequest = q) ∨
      w.orderRefLut.orderRefLookup (sizeT q.requestID) = q.reqOrder.userLocalID

/-! ## Ids -/

theorem sizeT_of_nonneg {id : Int32} (h : 0 ≤ id.toInt) : sizeT id = id.toInt.toNat := by
  have hlt := id.toInt_lt
  have := Word.toUnsigned_of_range (w := 64) h (by omega)
  rw [sizeT]
  omega

theorem sizeT_inj {id id' : Int32} (h : 0 ≤ id.toInt) (h' : 0 ≤ id'.toInt)
    (he : sizeT id = sizeT id') : id = id' := by
  rw [sizeT_of_nonneg h, sizeT_of_nonneg h'] at he
  exact Int32.toInt_inj.1 (by omega)

theorem toInt_toInt32 {u : UInt32} (h : u.toNat < 2 ^ 31) : u.toInt32.toInt = u.toNat := by
  show u.toBitVec.toInt = _
  rw [BitVec.toInt_eq_toNat_of_lt (by have := UInt32.toNat_toBitVec u; omega)]
  rfl

theorem toNat_add {u : UInt32} {n : ℕ} (h : u.toNat + n ≤ 2 ^ 31) :
    (u + UInt32.ofNat n).toNat = u.toNat + n := by
  rw [UInt32.toNat_add, UInt32.toNat_ofNat']
  omega

/-! ## Steps -/

section
variable {api : Api} {w : State}

theorem inv_init (api : Api) (stockCodes : List Int32) : Inv api stockCodes .init where
  fresh _ _ := rfl
  call_taken _ _ h := by simp [State.init] at h
  call_valid _ _ h := by simp [State.init] at h
  call_unrecorded _ _ h := by simp [State.init] at h
  call_inj _ _ _ _ h := by simp [State.init] at h
  handed_taken _ h := by simp [State.init] at h
  handed_valid _ h := by simp [State.init] at h
  handed _ h := by simp [State.init] at h

theorem Taken.mono {w' : State} {id : Int32} (h : Taken w id)
    (hle : w.requestID.toNat ≤ w'.requestID.toNat) : Taken w' id :=
  ⟨h.1, by have := h.2; omega⟩

variable {k k' : ℕ} {c c' : Call} {o : ReqOrder} {n : ℕ}

/-- After a call begins, a call is the new one, or one of before. -/
theorem calls_take (hc : (w.next api (.take k o n)).calls k' = some c) :
    (k' = k ∧ c = ⟨⟨w.requestID.toInt32, api.fill w.requestID.toInt32 o⟩, .taken⟩) ∨
      w.calls k' = some c := by
  simp only [State.next, Function.update_apply] at hc
  split_ifs at hc with he
  · exact .inl ⟨he, (Option.some.inj hc).symm⟩
  · exact .inr hc

theorem next_hand (api : Api) (hk : w.calls k = some c) : w.next api (.hand k) = { w with
    calls := Function.update w.calls k (some { c with phase := .handed })
    handed := c.toRequest :: w.handed } := by
  simp only [State.next, hk]

/-- When a call goes on, every call is still of the same request. -/
theorem calls_update {phase : Phase} (hk : w.calls k = some c)
    (hc' : Function.update w.calls k (some { c with phase }) k' = some c') :
    ∃ c'', w.calls k' = some c'' ∧ c''.toRequest = c'.toRequest := by
  simp only [Function.update_apply] at hc'
  split_ifs at hc' with he
  · rw [← Option.some.inj hc', he]
    exact ⟨c, hk, rfl⟩
  · exact ⟨c', hc', rfl⟩

theorem next_enter (api : Api) (hk : w.calls k = some c) : w.next api (.enter k) = { w with
    calls := Function.update w.calls k (some { c with phase := .recording })
    writers := (k, w.orderRefLut.grows (sizeT c.requestID)) :: w.writers
    raced := w.raced ||
      w.writers.any fun p => w.orderRefLut.grows (sizeT c.requestID) || p.2 } := by
  simp only [State.next, hk]

theorem next_record (api : Api) (hk : w.calls k = some c) : w.next api (.record k) = { w with
    calls := Function.update w.calls k none
    writers := w.writers.filter (·.1 ≠ k)
    orderRefLut := w.orderRefLut.setOrderRef (sizeT c.requestID) c.reqOrder.userLocalID } := by
  simp only [State.next, hk]

/-- After an order is recorded, the other calls go on. -/
theorem calls_record (hk : w.calls k = some c)
    (hc' : (w.next api (.record k)).calls k' = some c') : k' ≠ k ∧ w.calls k' = some c' := by
  rw [next_record api hk] at hc'
  simp only [Function.update_apply] at hc'
  split_ifs at hc' with he
  exact ⟨he, hc'⟩

theorem orderRefLookup_record (hk : w.calls k = some c) (hid : 0 ≤ c.requestID.toInt) (m : ℕ) :
    (w.next api (.record k)).orderRefLut.orderRefLookup m =
      if m = sizeT c.requestID then c.reqOrder.userLocalID
      else w.orderRefLut.orderRefLookup m := by
  have hbound := c.requestID.toInt_lt
  have hsize := sizeT_of_nonneg hid
  rw [next_record api hk]
  exact OrderRefLut.orderRefLookup_setOrderRef _ (by omega) _ m

/-- No request of before has the id that is taken next. -/
theorem Inv.ne_next (h : Inv api stockCodes w) (hlt : w.requestID.toNat < 2 ^ 31)
    (hc : w.calls k = some c) : c.requestID ≠ w.requestID.toInt32 := by
  intro he
  have htaken := (h.call_taken k c hc).2
  rw [he, toInt_toInt32 hlt] at htaken
  omega

theorem Inv.take (h : Inv api stockCodes w) (hk : w.calls k = none) (hn : 0 < n)
    (ho : o.userLocalID ∈ stockCodes.map Int32.toUInt32)
    (hsum : w.requestID.toNat + n ≤ 2 ^ 31) :
    Inv api stockCodes (w.next api (.take k o n)) := by
  have hnat : (w.next api (.take k o n)).requestID.toNat = w.requestID.toNat + n := toNat_add hsum
  have hint : w.requestID.toInt32.toInt = w.requestID.toNat := toInt_toInt32 (by omega)
  have hsize : sizeT w.requestID.toInt32 = w.requestID.toNat := by
    rw [sizeT_of_nonneg (by omega), hint, Int.toNat_natCast]
  have hle : w.requestID.toNat ≤ (w.next api (.take k o n)).requestID.toNat := by omega
  have hnew : ∀ {k' c}, w.calls k' = some c → c.requestID ≠ w.requestID.toInt32 :=
    h.ne_next (by omega)
  refine ⟨fun m hm => h.fresh m (by omega), ?_, ?_, ?_, ?_,
    fun q hq => (h.handed_taken q hq).mono hle, h.handed_valid, ?_⟩
  · intro k' c hc
    rcases calls_take hc with ⟨-, rfl⟩ | hc
    · exact ⟨by dsimp only; omega, by dsimp only; omega⟩
    · exact (h.call_taken k' c hc).mono hle
  · intro k' c hc
    rcases calls_take hc with ⟨-, rfl⟩ | hc
    · exact ⟨by cases api <;> exact ho, by rintro rfl; rfl⟩
    · exact h.call_valid k' c hc
  · intro k' c hc
    rcases calls_take hc with ⟨-, rfl⟩ | hc
    · exact h.fresh _ hsize.ge
    · exact h.call_unrecorded k' c hc
  · intro k₁ k₂ c₁ c₂ hc₁ hc₂ he
    rcases calls_take hc₁ with ⟨h₁, rfl⟩ | hold₁
    · rcases calls_take hc₂ with ⟨h₂, -⟩ | hold₂
      · rw [h₁, h₂]
      · exact absurd he.symm (hnew hold₂)
    · rcases calls_take hc₂ with ⟨-, rfl⟩ | hold₂
      · exact absurd he (hnew hold₁)
      · exact h.call_inj k₁ k₂ c₁ c₂ hold₁ hold₂ he
  · intro q hq
    rcases h.handed q hq with ⟨k', c, hc, hq'⟩ | hrec
    · have hne : k' ≠ k := by
        rintro rfl
        rw [hk] at hc
        cases hc
      exact .inl ⟨k', c, (Function.update_of_ne hne _ _).trans hc, hq'⟩
    · exact .inr hrec

/-- A call that goes on keeps the invariant: its request is as before, and once the
    API has the order, it has been handed over. -/
theorem Inv.of_update (h : Inv api stockCodes w) {v : State} (hk : w.calls k = some c)
    (phase : Phase) (hphase : phase ≠ .taken) (hid : v.requestID = w.requestID)
    (hlut : v.orderRefLut = w.orderRefLut)
    (hcalls : v.calls = Function.update w.calls k (some { c with phase }))
    (hhanded : ∀ q ∈ v.handed, q = c.toRequest ∨ q ∈ w.handed) : Inv api stockCodes v := by
  have htaken : ∀ id, Taken w id → Taken v id := fun id ht => ht.mono (by rw [hid])
  refine ⟨by rw [hid, hlut]; exact h.fresh, ?_, ?_, ?_, ?_, ?_, ?_, ?_⟩
  · intro k' c' hc'
    obtain ⟨c'', hc'', he⟩ := calls_update hk (hcalls ▸ hc')
    exact htaken _ (he ▸ h.call_taken k' c'' hc'')
  · intro k' c' hc'
    obtain ⟨c'', hc'', he⟩ := calls_update hk (hcalls ▸ hc')
    exact he ▸ h.call_valid k' c'' hc''
  · intro k' c' hc'
    obtain ⟨c'', hc'', he⟩ := calls_update hk (hcalls ▸ hc')
    rw [hlut, ← he]
    exact h.call_unrecorded k' c'' hc''
  · intro k₁ k₂ c₁ c₂ hc₁ hc₂ he
    obtain ⟨c₁', hc₁', he₁⟩ := calls_update hk (hcalls ▸ hc₁)
    obtain ⟨c₂', hc₂', he₂⟩ := calls_update hk (hcalls ▸ hc₂)
    exact h.call_inj k₁ k₂ c₁' c₂' hc₁' hc₂' (by rw [he₁, he₂, he])
  · intro q hq
    rcases hhanded q hq with rfl | hq
    · exact htaken _ (h.call_taken k c hk)
    · exact htaken _ (h.handed_taken q hq)
  · intro q hq
    rcases hhanded q hq with rfl | hq
    · exact h.call_valid k c hk
    · exact h.handed_valid q hq
  · intro q hq
    rw [hlut]
    have hself : v.calls k = some { c with phase } := by rw [hcalls, Function.update_self]
    rcases hhanded q hq with rfl | hq
    · exact .inl ⟨k, _, hself, hphase, rfl⟩
    · rcases h.handed q hq with ⟨k', c', hc', hh, hq'⟩ | hrec
      · by_cases hne : k' = k
        · subst hne
          obtain rfl := Option.some.inj (hk.symm.trans hc')
          exact .inl ⟨k', _, hself, hphase, hq'⟩
        · exact .inl ⟨k', c', by rw [hcalls, Function.update_of_ne hne, hc'], hh, hq'⟩
      · exact .inr hrec

theorem Inv.hand (h : Inv api stockCodes w) (hk : w.calls k = some c) :
    Inv api stockCodes (w.next api (.hand k)) := by
  rw [next_hand api hk]
  exact h.of_update hk .handed nofun rfl rfl rfl fun q hq => List.mem_cons.1 hq

theorem Inv.enter (h : Inv api stockCodes w) (hk : w.calls k = some c) :
    Inv api stockCodes (w.next api (.enter k)) := by
  rw [next_enter api hk]
  exact h.of_update hk .recording nofun rfl rfl rfl fun q hq => .inr hq

theorem Inv.record (hcodes : (-1 : UInt32) ∉ stockCodes.map Int32.toUInt32)
    (h : Inv api stockCodes w) (hk : w.calls k = some c) :
    Inv api stockCodes (w.next api (.record k)) := by
  obtain ⟨hnonneg, hlt⟩ := h.call_taken k c hk
  have hsize := sizeT_of_nonneg hnonneg
  have hlookup := @orderRefLookup_record api w k c hk hnonneg
  have hid : (w.next api (.record k)).requestID = w.requestID := by rw [next_record api hk]
  have hhanded : (w.next api (.record k)).handed = w.handed := by rw [next_record api hk]
  have htaken : ∀ id, Taken w id → Taken (w.next api (.record k)) id := fun id ht =>
    ht.mono (by rw [hid])
  refine ⟨?_, ?_, ?_, ?_, ?_, ?_, ?_, ?_⟩
  · intro n hn
    rw [hid] at hn
    rw [hlookup, if_neg (by omega)]
    exact h.fresh n hn
  · intro k' c' hc'
    exact htaken _ (h.call_taken k' c' (calls_record hk hc').2)
  · intro k' c' hc'
    exact h.call_valid k' c' (calls_record hk hc').2
  · intro k' c' hc'
    obtain ⟨hne, hc''⟩ := calls_record hk hc'
    have hids : sizeT c'.requestID ≠ sizeT c.requestID := fun he =>
      hne (h.call_inj k' k c' c hc'' hk (sizeT_inj (h.call_taken k' c' hc'').1 hnonneg he))
    rw [hlookup, if_neg hids]
    exact h.call_unrecorded k' c' hc''
  · intro k₁ k₂ c₁ c₂ hc₁ hc₂ he
    exact h.call_inj k₁ k₂ c₁ c₂ (calls_record hk hc₁).2 (calls_record hk hc₂).2 he
  · intro q hq
    rw [hhanded] at hq
    exact htaken _ (h.handed_taken q hq)
  · rw [hhanded]
    exact h.handed_valid
  · intro q hq
    rw [hhanded] at hq
    rcases h.handed q hq with ⟨k', c', hc', hh, rfl⟩ | hrec
    · by_cases he : k' = k
      · -- the request that is recorded now
        rw [he, hk] at hc'
        rw [← Option.some.inj hc', hlookup, if_pos rfl]
        exact .inr rfl
      · refine .inl ⟨k', c', ?_, hh, rfl⟩
        rw [next_record api hk]
        exact (Function.update_of_ne he _ _).trans hc'
    · refine .inr ?_
      have hids : sizeT q.requestID ≠ sizeT c.requestID := by
        intro he
        rw [he, h.call_unrecorded k c hk] at hrec
        exact hcodes (hrec ▸ (h.handed_valid q hq).1)
      rw [hlookup, if_neg hids]
      exact hrec

theorem Inv.other (h : Inv api stockCodes w) (hsum : w.requestID.toNat + 1 ≤ 2 ^ 31) :
    Inv api stockCodes (w.next api .other) := by
  have hnat : (w.next api .other).requestID.toNat = w.requestID.toNat + 1 := toNat_add hsum
  exact ⟨fun m hm => h.fresh m (by omega),
    fun k c hc => (h.call_taken k c hc).mono (by omega), h.call_valid, h.call_unrecorded,
    h.call_inj, fun q hq => (h.handed_taken q hq).mono (by omega), h.handed_valid, h.handed⟩

/-- The events to come are possible, send orders of configured stocks, and leave
    the counter in range. -/
def Pre (api : Api) (stockCodes : List Int32) (w : State) (es : List Event) : Prop :=
  Run.EachStep (State.next api) (State.Enabled api) w es ∧
    (∀ k o n, .take k o n ∈ es → o.userLocalID ∈ stockCodes.map Int32.toUInt32) ∧
    w.requestID.toNat + (es.map Event.ids).sum ≤ 2 ^ 31

theorem requestID_next {e : Event} (hsum : w.requestID.toNat + e.ids ≤ 2 ^ 31) :
    (w.next api e).requestID.toNat = w.requestID.toNat + e.ids := by
  cases e with
  | take k o n => exact toNat_add hsum
  | hand k => simp only [State.next, Event.ids]; cases w.calls k <;> rfl
  | enter k => simp only [State.next, Event.ids]; cases w.calls k <;> rfl
  | record k => simp only [State.next, Event.ids]; cases w.calls k <;> rfl
  | other => exact toNat_add hsum
  | respond q rsp => rfl

theorem Pre.tail {e : Event} {es : List Event} (h : Pre api stockCodes w (e :: es)) :
    Pre api stockCodes (w.next api e) es := by
  obtain ⟨henabled, horders, hsum⟩ := h
  rw [List.map_cons, List.sum_cons] at hsum
  refine ⟨(Run.eachStep_cons.1 henabled).2,
    fun k o n hmem => horders k o n (List.mem_cons_of_mem _ hmem), ?_⟩
  rw [requestID_next (by omega)]
  omega

theorem neg_one_notMem (hserved : ∀ code ∈ stockCodes, Served market code) :
    (-1 : UInt32) ∉ stockCodes.map Int32.toUInt32 := by
  intro h
  obtain ⟨code, hcode, he⟩ := List.mem_map.1 h
  have hneg : code = -1 := by rw [← Int32.toInt32_toUInt32 code, he]; rfl
  exact not_served_neg_one market (hneg ▸ hserved code hcode)

theorem inv_next (hserved : ∀ code ∈ stockCodes, Served market code) {e : Event}
    {es : List Event} (hpre : Pre api stockCodes w (e :: es)) (h : Inv api stockCodes w) :
    Inv api stockCodes (w.next api e) := by
  obtain ⟨henabled, horders, hsum⟩ := hpre
  have he := (Run.eachStep_cons.1 henabled).1
  rw [List.map_cons, List.sum_cons] at hsum
  cases e with
  | take k o n =>
    exact h.take he.1 he.2 (horders k o n List.mem_cons_self) (by rw [Event.ids] at hsum; omega)
  | hand k =>
    obtain ⟨c, hk, -⟩ := he
    exact h.hand hk
  | enter k =>
    obtain ⟨c, hk, -⟩ := he
    exact h.enter hk
  | record k =>
    obtain ⟨c, hk, -⟩ := he
    exact h.record (neg_one_notMem hserved) hk
  | other => exact h.other (by rw [Event.ids] at hsum; omega)
  | respond q rsp => exact h

/-! ## Responses -/

theorem rspRequestID_of_answers {q : Request} {rsp : Response} (hv : q.Valid api stockCodes)
    (h : api.Answers q rsp) : api.rspRequestID rsp = q.requestID := by
  cases api with
  | xele => exact h
  | ost => exact Eq.trans h (hv.2 rfl)

theorem dispatched_step_iff (hnodup : stockCodes.Nodup)
    (hserved : ∀ code ∈ stockCodes, Served market code) {e : Event}
    (he : w.Enabled api e) (h : Inv api stockCodes w) :
    Dispatched market stockCodes api w e ↔ Undisturbed w e := by
  cases e with
  | respond q rsp =>
    obtain ⟨hq, hans⟩ := he
    have hid := rspRequestID_of_answers (h.handed_valid q hq) hans
    by_cases hstable : w.Stable
    case neg =>
      rw [Dispatched, Undisturbed, State.userLocalID, if_neg hstable]
      exact iff_of_false (fun ⟨_, _, _, hrsp⟩ => absurd hrsp nofun) fun hc => hstable hc.2
    rw [Dispatched, Undisturbed, State.userLocalID, if_pos hstable, hid, Option.bind_some]
    constructor
    · rintro ⟨i, hi, -, hrsp⟩
      refine ⟨?_, hstable⟩
      rintro k c hk - rfl
      rw [h.call_unrecorded k c hk, handleRspOrder_neg_one hserved] at hrsp
      exact absurd hrsp nofun
    · rintro ⟨hnot, -⟩
      have hrec : w.orderRefLut.orderRefLookup (sizeT q.requestID) = q.reqOrder.userLocalID := by
        rcases h.handed q hq with ⟨k, c, hk, hh, hc⟩ | hrec
        · exact absurd hc (hnot k c hk hh)
        · exact hrec
      obtain ⟨code, hcode, hlocal⟩ := List.mem_map.1 (h.handed_valid q hq).1
      obtain ⟨i, hi, rfl⟩ := List.getElem_of_mem hcode
      refine ⟨i, hi, hlocal.symm, ?_⟩
      rw [hrec, ← hlocal]
      exact handleRspOrder_of_mem hnodup hserved hi
  | _ => exact Iff.rfl

/-- **Every response of a run reaches the stock that sent the order if and only if
    none is disturbed**: no response comes while the call that sent its order is
    between the API and the table, or while any call resizes the table, or after a
    call has resized it with another one in it. -/
theorem dispatched_iff (market : Market) (api : Api) {stockCodes : List Int32}
    (hnodup : stockCodes.Nodup) (hserved : ∀ code ∈ stockCodes, Served market code)
    {es : List Event} (hrun : Run.EachStep (State.next api) (State.Enabled api) .init es)
    (horders : ∀ k o n, .take k o n ∈ es → o.userLocalID ∈ stockCodes.map Int32.toUInt32)
    (hids : (es.map Event.ids).sum < 2 ^ 31) :
    Run.EachStep (State.next api) (Dispatched market stockCodes api) .init es ↔
      Run.EachStep (State.next api) Undisturbed .init es := by
  have hinit : State.init.requestID.toNat = 1 := rfl
  refine Run.eachStep_congr (fun _ _ _ hpre => Pre.tail hpre)
    (fun _ _ _ hpre hinv => inv_next hserved hpre hinv)
    (fun _ _ _ hpre hinv => dispatched_step_iff hnodup hserved (Run.eachStep_cons.1 hpre.1).1 hinv)
    ⟨hrun, horders, by omega⟩ (inv_init api stockCodes)

/-- Two orders on two threads: the response to the first one comes after its record,
    and before the second order resizes the table. -/
def recorded : List Event :=
  [.take 0 ⟨-1, 1⟩ 1, .hand 0, .enter 0, .record 0, .take 1 ⟨-1, 2⟩ 1, .hand 1,
    .respond ⟨1, ⟨1, 1⟩⟩ ⟨0, 1⟩, .enter 1, .record 1, .respond ⟨2, ⟨2, 2⟩⟩ ⟨0, 2⟩]

theorem dispatched_iff_recorded :
    Run.EachStep (State.next .ost) (Dispatched .SZ [1, 2] .ost) .init recorded := by
  have hserved : ∀ code ∈ [(1 : Int32), 2], Served .SZ code :=
    List.forall_mem_cons.2 ⟨by decide, List.forall_mem_singleton.2 (by decide)⟩
  refine (dispatched_iff .SZ .ost (by decide) hserved ?_ ?_ (by decide)).2 ?_
  · simp only [recorded, Run.eachStep_cons]
    exact ⟨⟨rfl, one_pos⟩, ⟨_, rfl, rfl⟩, ⟨_, rfl, rfl⟩, ⟨_, rfl, rfl⟩, ⟨rfl, one_pos⟩,
      ⟨_, rfl, rfl⟩, ⟨List.mem_cons_of_mem _ (List.mem_singleton.2 rfl), rfl⟩, ⟨_, rfl, rfl⟩,
      ⟨_, rfl, rfl⟩, ⟨List.mem_cons_self, rfl⟩, Run.eachStep_nil⟩
  · intro k o n hmem
    simp only [recorded, List.mem_cons, Event.take.injEq, List.not_mem_nil, reduceCtorEq,
      or_false, false_or] at hmem
    rcases hmem with ⟨-, rfl, -⟩ | ⟨-, rfl, -⟩ <;> decide
  · simp only [recorded, Run.eachStep_cons]
    refine ⟨trivial, trivial, trivial, trivial, trivial, trivial, ⟨?_, by decide⟩, trivial,
      trivial, ⟨?_, by decide⟩, Run.eachStep_nil⟩
    · rintro (_ | _ | k) c hk - <;> simp [State.next, State.init] at hk
      rw [← hk]
      decide
    · rintro (_ | _ | k) c hk - <;> simp [State.next, State.init] at hk

/-- The order of a stock, the first on its thread, and a response that comes before
    the record. -/
def overtaken (api : Api) : List Event :=
  [.take 0 ⟨-1, 1⟩ 1, .hand 0, .respond ⟨1, api.fill 1 ⟨-1, 1⟩⟩ ⟨1, 1⟩]

theorem enabled_overtaken (api : Api) :
    Run.EachStep (State.next api) (State.Enabled api) .init (overtaken api) := by
  simp only [overtaken, Run.eachStep_cons]
  refine ⟨⟨rfl, one_pos⟩, ⟨_, rfl, rfl⟩, ⟨List.mem_singleton.2 rfl, ?_⟩, Run.eachStep_nil⟩
  cases api <;> rfl

theorem dropped_overtaken (api : Api) :
    ¬ Run.EachStep (State.next api) (Dispatched .SZ [1] api) .init (overtaken api) := by
  simp only [overtaken, Run.eachStep_cons]
  rintro ⟨-, -, ⟨i, hi, -, hrsp⟩, -⟩
  have hlookup : some (-1 : UInt32) = State.userLocalID
      ((State.init.next api (.take 0 ⟨-1, 1⟩ 1)).next api (.hand 0)) api ⟨1, 1⟩ := by
    cases api <;> rfl
  rw [← hlookup] at hrsp
  cases hrsp

/-- Responses are dropped in both implementations. -/
theorem not_dispatched_overtaken :
    (Run.EachStep (State.next .xele) (State.Enabled .xele) .init (overtaken .xele) ∧
      ¬ Run.EachStep (State.next .xele) (Dispatched .SZ [1] .xele) .init (overtaken .xele)) ∧
    Run.EachStep (State.next .ost) (State.Enabled .ost) .init (overtaken .ost) ∧
      ¬ Run.EachStep (State.next .ost) (Dispatched .SZ [1] .ost) .init (overtaken .ost) :=
  ⟨⟨enabled_overtaken .xele, dropped_overtaken .xele⟩, enabled_overtaken .ost,
    dropped_overtaken .ost⟩

end

end OES

end Mdd2
