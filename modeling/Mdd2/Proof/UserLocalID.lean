/-
  No local id and no request id is used twice.

  The ids are the numbers of a counter from which threads take blocks
  (`Dispenser`), reduced to 32 bits.  A state of the program corresponds to two
  dispensers with the same counter (`Sim`): in one, a call uses the numbers of its
  block for the local ids; in the other, it uses the first for the API.  Without
  wrapping, distinct numbers are distinct ids (`ids_distinct`).
-/
import Mdd2.Lib.Dispenser
import Mdd2.Lib.Run
import Mdd2.UserLocalID

namespace Mdd2

namespace OES

namespace Xele

/-- The local id of a number. -/
def localID (M : UInt32) (x : ℕ) : UInt32 := M + UInt32.ofNat x

/-- The request id of a number. -/
def reqID (x : ℕ) : Int32 := (UInt32.ofNat x).toInt32

/-- The dispensers of the local ids and of the request ids. -/
structure Sim (M : UInt32) (w : State) (ids reqs : Dispenser ℕ) : Prop where
  ids_reachable : ids.Reachable 2
  reqs_reachable : reqs.Reachable 2
  next : w.g_requestID = UInt32.ofNat ids.next
  reqs_next : reqs.next = ids.next
  g_maxUserLocalID : w.g_maxUserLocalID = M
  calls : ∀ thread c, w.calls thread = some c → ∃ s, c.requestID = reqID s ∧ 0 < c.nBatch.toNat ∧
    ids.held thread = some (s + c.i, s + c.nBatch.toNat) ∧
    reqs.held thread = some (s, s + c.nBatch.toNat)
  userLocalIDs : w.userLocalIDs = ids.used.map (localID M)
  requestIDs : w.requestIDs = reqs.used.map reqID ++ [1]

variable {M : UInt32} {w : State} {ids reqs : Dispenser ℕ}

theorem Sim.login (M : UInt32) :
    Sim M (State.init.login M) (Dispenser.init 2) (Dispenser.init 2) where
  ids_reachable := .init
  reqs_reachable := .init
  next := rfl
  reqs_next := rfl
  g_maxUserLocalID := rfl
  calls thread c hc := absurd hc (by simp [State.login, State.init])
  userLocalIDs := rfl
  requestIDs := rfl

/-! ## Steps -/

theorem Sim.fetchAdd (h : Sim M w ids reqs) {thread : ℕ} {req : Req} (hpos : 1 ≤ req.nBatch) :
    Sim M (w.next (.fetchAdd thread req)) (ids.take thread req.nBatch.toNat)
      (reqs.take thread req.nBatch.toNat) where
  ids_reachable := h.ids_reachable.take ..
  reqs_reachable := h.reqs_reachable.take ..
  next := by
    show w.g_requestID + req.nBatch = UInt32.ofNat (ids.next + req.nBatch.toNat)
    rw [h.next, UInt32.ofNat_add, UInt32.ofNat_toNat]
  reqs_next := by
    show reqs.next + _ = ids.next + _
    rw [h.reqs_next]
  g_maxUserLocalID := h.g_maxUserLocalID
  calls thread' c hc := by
    simp only [State.next, Dispenser.take] at hc ⊢
    rcases Dispenser.update_eq_some hc with ⟨rfl, hp⟩ | ⟨ht, hc⟩
    · cases hp
      refine ⟨ids.next, ?_, ?_, ?_, ?_⟩
      · rw [reqID, h.next]
      · exact UInt32.le_iff_toNat_le.mp hpos
      · rw [Function.update_self]
        rfl
      · rw [Function.update_self, h.reqs_next]
    · simp only [Function.update_of_ne ht]
      exact h.calls thread' c hc
  userLocalIDs := h.userLocalIDs
  requestIDs := h.requestIDs

theorem Sim.putUserLocalID (h : Sim M w ids reqs) {thread : ℕ} {c : Call}
    (hc : w.calls thread = some c) (hi : c.i < c.nBatch.toNat) :
    ∃ ids', Sim M (w.next (.putUserLocalID thread)) ids' reqs ∧ ids'.next = ids.next := by
  obtain ⟨s, hreq, hpos, hids, hreqs⟩ := h.calls thread c hc
  refine ⟨ids.use thread (s + c.i) (s + c.nBatch.toNat), ⟨?_, h.reqs_reachable, ?_, h.reqs_next, ?_,
    ?_, ?_, ?_⟩, rfl⟩
  · exact h.ids_reachable.use hids (by omega)
  · rw [State.next, hc]
    exact h.next
  · rw [State.next, hc]
    exact h.g_maxUserLocalID
  · intro thread' c' hc'
    simp only [State.next, hc, Dispenser.use] at hc' ⊢
    rcases Dispenser.update_eq_some hc' with ⟨rfl, hp⟩ | ⟨ht, hc'⟩
    · cases hp
      exact ⟨s, hreq, hpos, by rw [Function.update_self, Nat.add_assoc], hreqs⟩
    · rw [Function.update_of_ne ht]
      exact h.calls thread' c' hc'
  · have hlocal : w.g_maxUserLocalID + c.requestID.toUInt32 + UInt32.ofNat c.i =
        localID M (s + c.i) := by
      rw [h.g_maxUserLocalID, hreq, reqID, UInt32.toUInt32_toInt32, localID, UInt32.ofNat_add,
        UInt32.add_assoc]
    rw [State.next, hc]
    simp only [hlocal, h.userLocalIDs, Dispenser.use, List.map_cons]
  · rw [State.next, hc]
    exact h.requestIDs

theorem Sim.callApi (h : Sim M w ids reqs) {thread : ℕ} {c : Call}
    (hc : w.calls thread = some c) :
    ∃ ids' reqs', Sim M (w.next (.callApi thread)) ids' reqs' ∧ ids'.next = ids.next := by
  obtain ⟨s, hreq, hpos, hids, hreqs⟩ := h.calls thread c hc
  refine ⟨ids.drop thread, (reqs.use thread s (s + c.nBatch.toNat)).drop thread,
    ⟨h.ids_reachable.drop _, (h.reqs_reachable.use hreqs (by omega)).drop _, ?_, h.reqs_next, ?_,
    ?_, ?_, ?_⟩, rfl⟩
  · rw [State.next, hc]
    exact h.next
  · rw [State.next, hc]
    exact h.g_maxUserLocalID
  · intro thread' c' hc'
    simp only [State.next, hc, Dispenser.drop, Dispenser.use] at hc' ⊢
    rcases Dispenser.update_eq_some hc' with ⟨-, hp⟩ | ⟨ht, hc'⟩
    · exact absurd hp (by simp)
    · simp only [Function.update_of_ne ht]
      exact h.calls thread' c' hc'
  · rw [State.next, hc]
    exact h.userLocalIDs
  · rw [State.next, hc]
    simp only [hreq, h.requestIDs, Dispenser.use, Dispenser.drop, List.map_cons, List.cons_append]

/-- **One step** of any thread. -/
theorem Sim.step (h : Sim M w ids reqs) {e : Event} (he : w.Enabled e) :
    ∃ ids' reqs', Sim M (w.next e) ids' reqs' ∧ ids'.next = ids.next + e.ids := by
  cases e with
  | fetchAdd thread req => exact ⟨_, _, h.fetchAdd he.2, rfl⟩
  | putUserLocalID thread =>
    obtain ⟨c, hc, hi⟩ := he
    obtain ⟨ids', hsim, hnext⟩ := h.putUserLocalID hc hi
    exact ⟨ids', reqs, hsim, hnext⟩
  | callApi thread =>
    obtain ⟨c, hc, -⟩ := he
    exact h.callApi hc

theorem Sim.run {es : List Event} (h : Sim M w ids reqs)
    (hes : Run.EachStep State.next State.Enabled w es) :
    ∃ ids' reqs', Sim M (es.foldl State.next w) ids' reqs' ∧
      ids'.next = ids.next + (es.map Event.ids).sum := by
  induction es generalizing w ids reqs with
  | nil => exact ⟨ids, reqs, h, rfl⟩
  | cons e es ih =>
    rw [Run.eachStep_cons] at hes
    obtain ⟨ids₁, reqs₁, h₁, hnext₁⟩ := h.step hes.1
    obtain ⟨ids', reqs', h', hnext'⟩ := ih h₁ hes.2
    refine ⟨ids', reqs', h', ?_⟩
    rw [hnext', hnext₁, List.map_cons, List.sum_cons, Nat.add_assoc]

/-! ## Ids -/

theorem toNat_localID {x : ℕ} (hx : M.toNat + x < 2 ^ 32) : (localID M x).toNat = M.toNat + x := by
  rw [localID, UInt32.toNat_add, UInt32.toNat_ofNat_of_lt' (by simp only [UInt32.size]; omega),
    Nat.mod_eq_of_lt hx]

theorem reqID_inj {x y : ℕ} (hx : x < 2 ^ 32) (hy : y < 2 ^ 32) (h : reqID x = reqID y) :
    x = y := by
  have heq := congrArg (fun r => r.toUInt32.toNat) h
  simp only [reqID, UInt32.toUInt32_toInt32] at heq
  rwa [UInt32.toNat_ofNat_of_lt' hx, UInt32.toNat_ofNat_of_lt' hy] at heq

/-- **Ids are never reused**, in any interleaving of calls after the login. -/
theorem ids_distinct (M : UInt32) {es : List Event}
    (hes : Run.EachStep State.next State.Enabled (State.init.login M) es)
    (hids : (es.map Event.ids).sum < 2 ^ 31)
    (hwrap : M.toNat + 1 + (es.map Event.ids).sum < 2 ^ 32) :
    (es.foldl State.next (State.init.login M)).userLocalIDs.Nodup ∧
    (∀ u ∈ (es.foldl State.next (State.init.login M)).userLocalIDs, M < u) ∧
    (es.foldl State.next (State.init.login M)).requestIDs.Nodup := by
  obtain ⟨ids, reqs, h, hnext⟩ := (Sim.login M).run hes
  have hlast : ids.next = 2 + (es.map Event.ids).sum := hnext
  have hrange : ∀ x ∈ ids.used, 2 ≤ x ∧ M.toNat + x < 2 ^ 32 := by
    intro x hx
    have := h.ids_reachable.range hx
    omega
  have hreqs : ∀ x ∈ reqs.used, 2 ≤ x ∧ x < 2 ^ 32 := by
    intro x hx
    have := h.reqs_reachable.range hx
    rw [h.reqs_next] at this
    omega
  refine ⟨?_, ?_, ?_⟩
  · rw [h.userLocalIDs]
    refine h.ids_reachable.nodup.map_on fun x hx y hy heq => ?_
    have := congrArg UInt32.toNat heq
    rw [toNat_localID (hrange x hx).2, toNat_localID (hrange y hy).2] at this
    omega
  · rw [h.userLocalIDs]
    rintro u hu
    obtain ⟨x, hx, rfl⟩ := List.mem_map.mp hu
    rw [UInt32.lt_iff_toNat_lt, toNat_localID (hrange x hx).2]
    have := (hrange x hx).1
    omega
  · rw [h.requestIDs, List.nodup_append]
    refine ⟨?_, List.nodup_singleton _, ?_⟩
    · exact h.reqs_reachable.nodup.map_on fun x hx y hy =>
        reqID_inj (hreqs x hx).2 (hreqs y hy).2
    · rintro r hr r' hr' rfl
      obtain ⟨x, hx, rfl⟩ := List.mem_map.mp hr
      have h1 : reqID x = reqID 1 := List.mem_singleton.mp hr'
      have := reqID_inj (hreqs x hx).2 (by omega) h1
      have := (hreqs x hx).1
      omega

/-- A batch of two on one thread, and a cancel on another that comes in between. -/
theorem ids_distinct_batch :
    let es : List Event := [.fetchAdd 0 (.sendReqOrderBatch 2), .putUserLocalID 0,
      .fetchAdd 1 .sendReqCancel, .putUserLocalID 1, .callApi 1, .putUserLocalID 0, .callApi 0]
    (es.foldl State.next (State.init.login 7)).userLocalIDs.Nodup ∧
    (∀ u ∈ (es.foldl State.next (State.init.login 7)).userLocalIDs, 7 < u) ∧
    (es.foldl State.next (State.init.login 7)).requestIDs.Nodup := by
  intro es
  have hids : (es.map Event.ids).sum = 3 := rfl
  refine ids_distinct 7 ?_ (by omega) (by rw [hids]; decide)
  simp [es, Run.eachStep_cons, Run.eachStep_nil, State.Enabled, State.next, State.login, State.init,
    Req.nBatch]

end Xele

end OES

end Mdd2
