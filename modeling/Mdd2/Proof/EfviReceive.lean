/-
  The circulation of the packet buffers, with any adapter that does what is documented.

  In every state, each buffer is in one place: posted to the adapter, in a queued
  event, in an event that the thread has polled, or on the stack of the free ones
  (`Inv.buffers`).  With as many buffers as the ring has places, the space of the
  ring is what the thread holds, and so

  * no pointer of the stack is null where it is used, no assertion fails, and the
    ring never overflows (`receiver_safe`);
  * a frame is not written over before it is handled: the frames are handled
    once each, as they were received, in order, and a feed with one record type
    gets the records of well-formed datagrams, whatever the options of the IP
    header and the padding (`receiver_delivers`);
  * the adapter does not run out of buffers for good, although the ring is only
    refilled after an event, and by a half of what a poll may take
    (`receiver_live`).
-/
import Mdd2.Lib.LinkedStack
import Mdd2.EfviReceive
import Mdd2.Proof.Quotes

namespace Mdd2

open LinkedStack

namespace EfviReceive

variable {vi : EfVi} {pkt_bufs_n : ℕ} {res res' : Resources} {l : List ℕ} {w v : Receiver}

/-! ## The stack -/

/-- The free buffers, the last freed first. -/
structure Holds (res : Resources) (l : List ℕ) : Prop where
  stack : IsStack res.next res.free_pkt_bufs l
  count : res.free_pkt_bufs_n = l.length

theorem Holds.pktBufFree {i : ℕ} (h : Holds res l) (hi : i ∉ l) :
    Holds (pktBufFree res i) (i :: l) where
  stack := h.stack.push hi
  count := by simp only [EfviReceive.pktBufFree, h.count, List.length_cons, Nat.cast_succ]

theorem holds_freed (n : ℕ) :
    Holds ((List.range n).foldl EfviReceive.pktBufFree Resources.zero) (List.range n).reverse := by
  induction n with
  | zero => exact ⟨rfl, rfl⟩
  | succ n ih =>
    rw [List.range_succ, List.foldl_append, List.reverse_append]
    exact ih.pktBufFree (by simp)

theorem Holds.postBatch {k : ℕ} (h : Holds res l) (hk : k ≤ l.length) :
    ∃ res', postBatch k res = some (l.take k, res') ∧ Holds res' (l.drop k) := by
  induction k generalizing res l with
  | zero => exact ⟨res, rfl, h⟩
  | succ k ih =>
    rcases l with - | ⟨i, l⟩
    · exact absurd hk (by simp)
    · obtain ⟨htop, hstack⟩ := h.stack.pop
      have hcount := h.count
      rw [List.length_cons] at hcount hk
      obtain ⟨res', hbatch, hholds⟩ := @ih
        ⟨res.next, res.next i, res.free_pkt_bufs_n - 1⟩ l ⟨hstack, by push_cast at *; omega⟩
        (by omega)
      refine ⟨res', ?_, hholds⟩
      rw [EfviReceive.postBatch, htop]
      simp only [Option.bind_eq_bind, Option.bind_some]
      rw [hbatch]
      rfl

/-- The ring is refilled when the thread has a batch of buffers. -/
theorem Holds.refillRxRing (h : Holds res l) :
    ∃ res', refillRxRing l.length res =
        some (if REFILL_BATCH_SIZE ≤ l.length then l.take REFILL_BATCH_SIZE else [], res') ∧
      Holds res' (if REFILL_BATCH_SIZE ≤ l.length then l.drop REFILL_BATCH_SIZE else l) := by
  rw [EfviReceive.refillRxRing, h.count]
  by_cases hle : REFILL_BATCH_SIZE ≤ l.length
  · rw [if_neg (by omega), if_pos hle, if_pos hle]
    exact h.postBatch hle
  · rw [if_pos (by omega), if_neg hle, if_neg hle]
    exact ⟨res, rfl, h⟩

/-! ## `init` -/

/-- What `init` leaves: the posted buffers and the free ones, with at most a batch free. -/
structure Filled (pkt_bufs_n : ℕ) (posted : List ℕ) (res : Resources) (l : List ℕ) : Prop where
  holds : Holds res l
  perm : (posted ++ l).Perm (List.range pkt_bufs_n)

theorem Filled.length {posted : List ℕ} (h : Filled pkt_bufs_n posted res l) :
    (pkt_bufs_n - posted.length : ℤ) = l.length := by
  have hlen := h.perm.length_eq
  rw [List.length_append, List.length_range] at hlen
  omega

theorem Filled.refill {posted : List ℕ} (h : Filled pkt_bufs_n posted res l)
    (hle : REFILL_BATCH_SIZE ≤ l.length) :
    ∃ res', refillRxRing (pkt_bufs_n - posted.length) res =
        some (l.take REFILL_BATCH_SIZE, res') ∧
      Filled pkt_bufs_n (posted ++ l.take REFILL_BATCH_SIZE) res' (l.drop REFILL_BATCH_SIZE) := by
  obtain ⟨res', hrefill, hholds⟩ := h.holds.refillRxRing
  rw [if_pos hle] at hrefill hholds
  refine ⟨res', h.length ▸ hrefill, hholds, ?_⟩
  rw [List.append_assoc, List.take_append_drop]
  exact h.perm

theorem Filled.fillRxRing {posted : List ℕ} {rounds : ℕ} (h : Filled pkt_bufs_n posted res l)
    {out : List ℕ × Resources}
    (hfill : EfviReceive.fillRxRing pkt_bufs_n rounds posted res = some out) :
    ∃ l', Filled pkt_bufs_n out.1 out.2 l' ∧ l'.length ≤ REFILL_BATCH_SIZE := by
  induction rounds generalizing posted res l with
  | zero => exact absurd hfill (by simp [EfviReceive.fillRxRing])
  | succ rounds ih =>
    rw [EfviReceive.fillRxRing, h.length] at hfill
    split_ifs at hfill with hgt
    · obtain ⟨res', hrefill, hfilled⟩ := h.refill (by omega)
      rw [h.length] at hrefill
      rw [hrefill] at hfill
      exact ih hfilled hfill
    · obtain rfl := Option.some.inj hfill
      exact ⟨l, h, by omega⟩

/-- The loop ends. -/
theorem Filled.exists_fillRxRing {posted : List ℕ} {rounds : ℕ}
    (h : Filled pkt_bufs_n posted res l) (hrounds : l.length < rounds) :
    ∃ out, EfviReceive.fillRxRing pkt_bufs_n rounds posted res = some out := by
  induction rounds generalizing posted res l with
  | zero => exact absurd hrounds (Nat.not_lt_zero _)
  | succ rounds ih =>
    rw [EfviReceive.fillRxRing, h.length]
    by_cases hgt : (l.length : ℤ) > REFILL_BATCH_SIZE
    · obtain ⟨res', hrefill, hfilled⟩ := h.refill (by omega)
      rw [h.length] at hrefill
      rw [if_pos hgt, hrefill]
      refine ih hfilled ?_
      have hpos : 0 < REFILL_BATCH_SIZE := by decide
      rw [List.length_drop]
      omega
    · exact ⟨(posted, res), if_neg hgt⟩

theorem filled_start (n : ℕ) : Filled n []
    ((List.range n).foldl EfviReceive.pktBufFree Resources.zero) (List.range n).reverse where
  holds := holds_freed n
  perm := List.reverse_perm _

/-! ## The invariant -/

@[simp] theorem ids_nil : ids [] = [] := rfl

theorem ids_append (evs evs' : List Event) : ids (evs ++ evs') = ids evs ++ ids evs' :=
  List.filterMap_append

theorem ids_cons_some {ev : Event} {i : ℕ} (h : ev.id? = some i) (evs : List Event) :
    ids (ev :: evs) = i :: ids evs := List.filterMap_cons_some h

theorem ids_cons_none {ev : Event} (h : ev.id? = none) (evs : List Event) :
    ids (ev :: evs) = ids evs := List.filterMap_cons_none h

/-- The buffers that are not free. -/
def Receiver.lent (w : Receiver) : List ℕ := w.posted ++ ids w.queue ++ ids w.control.pending

/-- Every buffer is in one place, and those with a frame hold what is not handled yet. -/
structure Inv (pkt_bufs_n : ℕ) (w : Receiver) : Prop where
  buffers : ∃ l, Holds w.res l ∧ (w.lent ++ l).Perm (List.range pkt_bufs_n)
  contents : w.handled ++ ((ids w.control.pending).map w.frames ++ (ids w.queue).map w.frames) =
    w.received
  running : w.control ≠ .aborted
  stocked : w.control = .poll →
    min REFILL_BATCH_SIZE (pkt_bufs_n - REFILL_BATCH_SIZE) ≤ w.posted.length + (ids w.queue).length

theorem Inv.nodup (h : Inv pkt_bufs_n w) : w.lent.Nodup := by
  obtain ⟨l, -, hperm⟩ := h.buffers
  exact (List.nodup_append.1 (hperm.nodup_iff.2 List.nodup_range)).1

theorem Inv.lt (h : Inv pkt_bufs_n w) {i : ℕ} (hi : i ∈ w.lent) : i < pkt_bufs_n := by
  obtain ⟨l, -, hperm⟩ := h.buffers
  exact List.mem_range.1 (hperm.subset (List.mem_append_left l hi))

/-- The space of the ring is what the thread holds. -/
theorem Inv.space_eq (h : Inv pkt_bufs_n w) (hpending : w.control.pending = []) :
    ∃ l, Holds w.res l ∧ (w.posted ++ ids w.queue ++ l).Perm (List.range pkt_bufs_n) ∧
      w.space pkt_bufs_n = l.length := by
  obtain ⟨l, hholds, hperm⟩ := h.buffers
  rw [Receiver.lent, hpending, ids_nil, List.append_nil] at hperm
  refine ⟨l, hholds, hperm, ?_⟩
  have hlen := hperm.length_eq
  rw [List.length_append, List.length_append, List.length_range] at hlen
  rw [Receiver.space]
  omega

theorem inv_init {rounds : ℕ} {posted : List ℕ} (frames : ℕ → List UInt8)
    (hinit : initBuffers pkt_bufs_n rounds = some (posted, res)) :
    Inv pkt_bufs_n ⟨.poll, res, posted, [], frames, [], []⟩ := by
  obtain ⟨l, hfilled, hlen⟩ := (filled_start pkt_bufs_n).fillRxRing hinit
  refine ⟨⟨l, hfilled.holds, ?_⟩, rfl, by simp, fun _ => ?_⟩
  · simpa [Receiver.lent, ids, Control.pending] using hfilled.perm
  · have hsum := hfilled.length
    simp only [ids, List.filterMap_nil, List.length_nil] at hsum ⊢
    omega

/-- The adapter writes to a buffer that it was lent, and to no other. -/
theorem Inv.write (h : Inv pkt_bufs_n w) {i : ℕ} {posted : List ℕ} {ev : Event}
    (hposted : w.posted = i :: posted) (hev : ev.id? = some i) (frame : List UInt8) :
    Inv pkt_bufs_n { w with
      posted := posted
      queue := w.queue ++ [ev]
      frames := Function.update w.frames i frame
      received := w.received ++ [frame] } := by
  have hids : ids (w.queue ++ [ev]) = ids w.queue ++ [i] := by
    rw [ids_append, ids_cons_some hev]
    rfl
  have hnodup := h.nodup
  rw [Receiver.lent, hposted, List.append_assoc, List.cons_append, List.nodup_cons] at hnodup
  simp only [List.mem_append, not_or] at hnodup
  obtain ⟨⟨-, hqueue, hpending⟩, -⟩ := hnodup
  -- the frames in the other buffers stay
  have hframes : ∀ is : List ℕ, i ∉ is →
      is.map (Function.update w.frames i frame) = is.map w.frames := fun is hi =>
    List.map_congr_left fun j hj => Function.update_of_ne (ne_of_mem_of_not_mem hj hi) _ _
  refine ⟨?_, ?_, h.running, fun hpoll => ?_⟩
  · obtain ⟨l, hholds, hperm⟩ := h.buffers
    refine ⟨l, hholds, List.Perm.trans ?_ hperm⟩
    rw [Receiver.lent, Receiver.lent, hposted, hids, List.perm_iff_count]
    intro a
    simp only [List.count_append, List.count_cons, List.count_nil]
    omega
  · rw [← h.contents, hids, List.map_append, hframes _ hqueue, hframes _ hpending]
    simp only [List.map_singleton, Function.update_self, List.append_assoc]
  · have hstocked := h.stocked hpoll
    rw [hposted, List.length_cons] at hstocked
    rw [hids, List.length_append, List.length_singleton]
    dsimp only
    omega

theorem Inv.adapterStep (h : Inv pkt_bufs_n w) (hs : AdapterStep w v) : Inv pkt_bufs_n v := by
  cases hs with
  | rx frame hposted => exact h.write hposted rfl frame
  | rxDiscard frame hposted => exact h.write hposted rfl frame
  | other =>
    have hids : ids (w.queue ++ [.other]) = ids w.queue := by
      rw [ids_append, ids_cons_none rfl]
      exact List.append_nil _
    obtain ⟨hbuffers, hcontents, hrunning, hstocked⟩ := h
    exact ⟨by rwa [Receiver.lent, hids], by rwa [hids], hrunning, by rwa [hids]⟩

/-- A buffer is freed after its frame is handled. -/
theorem Inv.handleRx (h : Inv pkt_bufs_n w) {ev : Event} {evs : List Event} {i : ℕ}
    (hcontrol : w.control = .handle (ev :: evs)) (hev : ev.id? = some i) :
    Inv pkt_bufs_n (w.handleRx pkt_bufs_n i evs) := by
  have hids : ids w.control.pending = i :: ids evs := by
    rw [hcontrol, Control.pending, ids_cons_some hev]
  have hi : i ∈ w.lent := by simp [Receiver.lent, hids]
  rw [Receiver.handleRx, if_pos (h.lt hi)]
  refine ⟨?_, ?_, by simp, fun hpoll => absurd hpoll (by simp)⟩
  · obtain ⟨l, hholds, hperm⟩ := h.buffers
    have hnodup := hperm.nodup_iff.2 List.nodup_range
    have hfree : i ∉ l := fun hl => (List.nodup_append.1 hnodup).2.2 i hi i hl rfl
    refine ⟨i :: l, hholds.pktBufFree hfree, List.Perm.trans ?_ hperm⟩
    rw [Receiver.lent, Receiver.lent, hids, Control.pending, List.perm_iff_count]
    intro a
    simp only [List.count_append, List.count_cons]
    omega
  · rw [← h.contents, hids]
    simp [Control.pending]

theorem Inv.threadStep (hvi : vi.Documented) (h : Inv pkt_bufs_n w)
    (hs : ThreadStep vi pkt_bufs_n w v) : Inv pkt_bufs_n v := by
  cases hs with
  | quit hcontrol =>
    obtain ⟨hbuffers, hcontents, hrunning, hstocked⟩ := h
    rw [Receiver.lent, hcontrol] at hbuffers
    rw [hcontrol] at hcontents
    exact ⟨hbuffers, hcontents, by simp, fun hpoll => absurd hpoll (by simp)⟩
  | @poll evs queue hcontrol hpoll _ =>
    have hids : ids evs ++ ids queue = ids w.queue := by
      rw [← ids_append, (hvi.poll hpoll).1]
    obtain ⟨⟨l, hholds, hperm⟩, hcontents, -, -⟩ := h
    refine ⟨⟨l, hholds, List.Perm.trans ?_ hperm⟩, ?_, by simp, fun hpoll => absurd hpoll (by simp)⟩
    · rw [Receiver.lent, Receiver.lent, hcontrol, ← hids, List.perm_iff_count]
      intro a
      simp only [Control.pending, List.count_append, ids, List.filterMap_nil, List.count_nil]
      omega
    · rw [← hcontents, hcontrol, ← hids, List.map_append]
      rfl
  | event hcontrol hev => exact h.handleRx hcontrol hev
  | @unexpected ev evs hcontrol hev =>
    have hids : ids w.control.pending = ids evs := by
      rw [hcontrol, Control.pending, ids_cons_none hev]
    obtain ⟨hbuffers, hcontents, -, -⟩ := h
    rw [Receiver.lent, hids] at hbuffers
    rw [hids] at hcontents
    exact ⟨hbuffers, hcontents, by simp, fun hpoll => absurd hpoll (by simp)⟩
  | @refill posted res hcontrol hrefill =>
    have hpending : w.control.pending = [] := by rw [hcontrol]; rfl
    obtain ⟨l, hholds, hperm, hspace⟩ := h.space_eq hpending
    obtain ⟨res', hrefill', hholds'⟩ := hholds.refillRxRing
    rw [hspace, hrefill', Option.some.injEq, Prod.mk.injEq] at hrefill
    obtain ⟨rfl, rfl⟩ := hrefill
    have hcontents := h.contents
    rw [hpending] at hcontents
    have hlen := hperm.length_eq
    simp only [List.length_append, List.length_range] at hlen
    refine ⟨⟨_, hholds', ?_⟩, hcontents, by simp, fun _ => ?_⟩
    · refine List.Perm.trans ?_ hperm
      rw [Receiver.lent, List.perm_iff_count]
      intro a
      split_ifs
      · have hcount := congrArg (List.count a) (List.take_append_drop REFILL_BATCH_SIZE l)
        simp only [Control.pending, List.count_append, ids, List.filterMap_nil,
          List.count_nil] at hcount ⊢
        omega
      · simp [Control.pending, ids]
    · split_ifs with hle
      · simp only [List.length_append, List.length_take]
        omega
      · simp only [List.length_append, List.length_nil]
        omega
  | fault hcontrol hfault =>
    have hpending : w.control.pending = [] := by rw [hcontrol]; rfl
    obtain ⟨l, hholds, -, hspace⟩ := h.space_eq hpending
    obtain ⟨res', hrefill, -⟩ := hholds.refillRxRing
    rw [hspace, hrefill] at hfault
    exact absurd hfault (by simp)

theorem Reachable.inv (hvi : vi.Documented) (hw : Reachable vi pkt_bufs_n w) :
    Inv pkt_bufs_n w := by
  induction hw with
  | init frames hinit => exact inv_init frames hinit
  | adapter _ hs ih => exact ih.adapterStep (hvi.adapter hs)
  | thread _ hs ih => exact ih.threadStep hvi hs

/-! ## Runs -/

/-- **The buffers circulate safely.**  In every state of every run, each buffer is either lent
    or on the stack, once; the stack is as long as its counter says; the ring holds no more
    than its places; no assertion has failed, and no null pointer was used. -/
theorem receiver_safe (hvi : vi.Documented) (hw : Reachable vi pkt_bufs_n w) :
    w.control ≠ .aborted ∧ w.lent.Nodup ∧ 0 ≤ w.space pkt_bufs_n ∧
      ∃ free, IsStack w.res.next w.res.free_pkt_bufs free ∧
        w.res.free_pkt_bufs_n = free.length ∧
        (w.lent ++ free).Perm (List.range pkt_bufs_n) := by
  have hinv := hw.inv hvi
  obtain ⟨l, hholds, hperm⟩ := hinv.buffers
  refine ⟨hinv.running, hinv.nodup, ?_, l, hholds.stack, hholds.count, hperm⟩
  have hlen := hperm.length_eq
  simp only [Receiver.lent, List.length_append, List.length_range] at hlen
  rw [Receiver.space]
  omega

/-- A run of the thread alone. -/
abbrev ThreadRun (vi : EfVi) (pkt_bufs_n : ℕ) : Receiver → Receiver → Prop :=
  Relation.ReflTransGen (ThreadStep vi pkt_bufs_n)

/-- What is left to do before the queue is empty and the thread polls. -/
def Receiver.work (w : Receiver) : ℕ :=
  4 * w.queue.length + match w.control with
    | .handle evs => 2 * evs.length + 1
    | .poll | .aborted | .ended => 0

/-- The thread can go on with what there is. -/
theorem Inv.progress (hvi : vi.Documented) (h : Inv pkt_bufs_n w) (hended : w.control ≠ .ended) :
    w.control = .poll ∧ w.queue = [] ∨ ∃ v, ThreadStep vi pkt_bufs_n w v ∧ v.control ≠ .ended ∧
      v.received = w.received ∧ v.work < w.work := by
  have hrunning := h.running
  rcases hcontrol : w.control with - | evs | - | -
  · rcases hqueue : w.queue with - | ⟨ev, queue⟩
    · exact .inl ⟨rfl, rfl⟩
    · obtain ⟨evs, rest, hpoll, hne⟩ := hvi.ready (show 0 < 32 by decide)
        (show w.queue ≠ [] by simp [hqueue])
      refine .inr ⟨_, .poll hcontrol hpoll hne, by simp, rfl, ?_⟩
      have hpos := List.length_pos_iff.2 hne
      have hlen := congrArg List.length (hvi.poll hpoll).1
      rw [List.length_append] at hlen
      simp only [Receiver.work, hcontrol]
      omega
  · rcases evs with - | ⟨ev, evs⟩
    · obtain ⟨l, hholds, -, hspace⟩ := h.space_eq (by rw [hcontrol]; rfl)
      obtain ⟨res', hrefill, -⟩ := hholds.refillRxRing
      rw [← hspace] at hrefill
      exact .inr ⟨_, .refill hcontrol hrefill, by simp, rfl, by simp [Receiver.work, hcontrol]⟩
    · rcases hev : ev.id? with - | i
      · exact .inr ⟨_, .unexpected hcontrol hev, by simp, rfl, by simp [Receiver.work, hcontrol]⟩
      · have hi : i ∈ w.lent := by
          simp [Receiver.lent, hcontrol, Control.pending, ids_cons_some hev]
        refine .inr ⟨_, .event hcontrol hev, ?_⟩
        rw [Receiver.handleRx, if_pos (h.lt hi)]
        exact ⟨by simp, rfl, by simp [Receiver.work, hcontrol]⟩
  · exact absurd hcontrol hrunning
  · exact absurd hcontrol hended

theorem Reachable.drain (hvi : vi.Documented) (hw : Reachable vi pkt_bufs_n w)
    (hended : w.control ≠ .ended) :
    ∃ v, ThreadRun vi pkt_bufs_n w v ∧ v.control = .poll ∧ v.queue = [] ∧
      v.received = w.received := by
  induction hwork : w.work using Nat.strong_induction_on generalizing w with
  | _ n ih =>
    rcases (hw.inv hvi).progress hvi hended with
      ⟨hcontrol, hqueue⟩ | ⟨v, hs, hended', hreceived, hlt⟩
    · exact ⟨w, .refl, hcontrol, hqueue, rfl⟩
    · obtain ⟨u, hrun, hcontrol, hqueue, hu⟩ := ih _ (hwork ▸ hlt) (hw.thread hs) hended' rfl
      exact ⟨u, .head hs hrun, hcontrol, hqueue, hu.trans hreceived⟩

theorem Reachable.run (hw : Reachable vi pkt_bufs_n w) (hrun : ThreadRun vi pkt_bufs_n w v) :
    Reachable vi pkt_bufs_n v := by
  induction hrun with
  | refl => exact hw
  | tail _ hs ih => exact ih.thread hs

/-- **The receiver does not starve.**  `init` ends.  Where the thread polls, the adapter has a
    buffer, or an event waits; and from every state before the end, the thread alone comes
    to handle all that was received. -/
theorem receiver_live (hvi : vi.Documented) (hn : REFILL_BATCH_SIZE < pkt_bufs_n) :
    (∃ rounds out, initBuffers pkt_bufs_n rounds = some out) ∧
      ∀ w, Reachable vi pkt_bufs_n w →
        (w.control = .poll → w.posted ≠ [] ∨ w.queue ≠ []) ∧
        (w.control ≠ .ended → ∃ v, ThreadRun vi pkt_bufs_n w v ∧ v.control = .poll ∧
          v.handled = w.received) := by
  refine ⟨⟨_, (filled_start pkt_bufs_n).exists_fillRxRing (Nat.lt_succ_self _)⟩, fun w hw =>
    ⟨fun hpoll => ?_, fun hended => ?_⟩⟩
  · have hstocked := (hw.inv hvi).stocked hpoll
    have hbatch : 0 < REFILL_BATCH_SIZE := by decide
    by_contra hnone
    rw [not_or, not_not, not_not] at hnone
    rw [hnone.1, hnone.2, ids_nil, List.length_nil] at hstocked
    omega
  · obtain ⟨v, hrun, hcontrol, hqueue, hreceived⟩ := hw.drain hvi hended
    refine ⟨v, hrun, hcontrol, ?_⟩
    have hcontents := ((hw.run hrun).inv hvi).contents
    rw [hcontrol, hqueue, hreceived] at hcontents
    simpa [Control.pending] using hcontents

/-! ## Datagrams -/

/-- A frame with a UDP datagram of records of one size. -/
structure Datagram (q : Ostmd.Quote) where
  mac : Vector UInt8 14
  /-- version and header length, the first byte of the IP header -/
  version : UInt8
  /-- the rest of the IP header -/
  header : List UInt8
  ports : Vector UInt8 4
  checksum : Vector UInt8 2
  records : List (Vector UInt8 q.sizeof)
  padding : List UInt8
  length_header : header.length + 1 = version.toNat % 16 * 4
  length_lt : 8 + records.length * q.sizeof < 65536

namespace Datagram

variable {q : Ostmd.Quote} (d : Datagram q)

def data : List UInt8 := d.records.flatMap Vector.toList

theorem length_data : d.data.length = d.records.length * q.sizeof := by
  rw [data, List.length_flatMap]
  simp

/-- The UDP header up to the length, and from the length on. -/
def udp : List UInt8 :=
  d.ports.toList ++ [UInt8.ofNat ((8 + d.data.length) / 256), UInt8.ofNat (8 + d.data.length)] ++
    d.checksum.toList

def frame : List UInt8 :=
  d.mac.toList ++ (d.version :: d.header) ++ d.udp ++ (d.data ++ d.padding)

/-- The records that are handed on, with the bytes read of them. -/
def quotes : List (ℤ × List UInt8) :=
  d.records.mapIdx fun i r =>
    ((i * q.sizeof : ℕ), (r.toList.drop q.readOffset).take q.readLength)

theorem length_udp : d.udp.length = 8 := by simp [udp]

theorem length_headers :
    (d.mac.toList ++ (d.version :: d.header)).length = 14 + d.version.toNat % 16 * 4 := by
  rw [List.length_append, Vector.length_toList, List.length_cons, d.length_header]

/-- The bytes of the UDP header in the frame. -/
theorem getElem?_udp {i : ℕ} (hi : i < 8) :
    d.frame[14 + d.version.toNat % 16 * 4 + i]? = d.udp[i]? := by
  have hlen := d.length_udp
  rw [frame, List.append_assoc, List.getElem?_append_right (by rw [length_headers]; omega),
    length_headers, Nat.add_sub_cancel_left, List.getElem?_append_left (by omega)]

/-- **The payload is found behind any IP header.** -/
theorem payload_frame :
    payload d.frame = some (d.data ++ d.padding, UInt32.ofNat d.data.length) := by
  have hversion : d.frame[14]? = some d.version := by
    rw [frame, List.append_assoc, List.append_assoc,
      List.getElem?_append_right (by rw [Vector.length_toList])]
    simp
  have hhigh := d.getElem?_udp (show 4 < 8 by decide)
  have hlow := d.getElem?_udp (show 5 < 8 by decide)
  have hlt := d.length_lt
  rw [← d.length_data] at hlt
  have hdrop : d.frame.drop (14 + d.version.toNat % 16 * 4 + 8) = d.data ++ d.padding := by
    have hlen : (d.mac.toList ++ (d.version :: d.header) ++ d.udp).length =
        14 + d.version.toNat % 16 * 4 + 8 := by
      rw [List.length_append, length_headers, length_udp]
    rw [← hlen, frame, List.drop_left]
  have hsum : ((256 * (UInt8.ofNat ((8 + d.data.length) / 256)).toNat +
      (UInt8.ofNat (8 + d.data.length)).toNat : ℕ) : ℤ) - 8 = d.data.length := by
    rw [UInt8.toNat_ofNat', UInt8.toNat_ofNat']
    omega
  rw [udp, List.append_assoc, List.getElem?_append_right (by simp)] at hhigh hlow
  simp only [Vector.length_toList, Nat.sub_self, List.cons_append, List.getElem?_cons_zero,
    List.getElem?_cons_succ, Nat.reduceSub] at hhigh hlow
  rw [payload, hversion]
  simp only [Option.bind_eq_bind, Option.bind_some]
  rw [hhigh, hlow]
  simp only [Option.bind_some]
  have hword : Word.toUnsigned 32 d.data.length = d.data.length := by
    exact_mod_cast Word.toUnsigned_of_range (Int.natCast_nonneg d.data.length) (by omega)
  rw [hsum, hdrop, hword]

theorem drop_data {i : ℕ} (hi : i < d.records.length) :
    ∃ rest, (d.data ++ d.padding).drop (i * q.sizeof) = d.records[i].toList ++ rest := by
  have hsplit : d.data = (d.records.take i).flatMap Vector.toList ++
      (d.records[i].toList ++ (d.records.drop (i + 1)).flatMap Vector.toList) := by
    rw [← List.flatMap_cons, ← List.flatMap_append, List.getElem_cons_drop, List.take_append_drop,
      data]
  have hlen : ((d.records.take i).flatMap Vector.toList).length = i * q.sizeof := by
    rw [List.length_flatMap]
    simp [Nat.min_eq_left hi.le]
  refine ⟨(d.records.drop (i + 1)).flatMap Vector.toList ++ d.padding, ?_⟩
  rw [hsplit, List.append_assoc, ← hlen, List.drop_left, List.append_assoc]

theorem record_data {i : ℕ} (hi : i < d.records.length) :
    Ostmd.Quote.record q (d.data ++ d.padding) i =
      (((i * q.sizeof : ℕ) : ℤ), (d.records[i].toList.drop q.readOffset).take q.readLength) := by
  obtain ⟨rest, hrest⟩ := d.drop_data hi
  have hread := q.read_inside
  rw [Ostmd.Quote.record, ← List.drop_drop, hrest, List.drop_append_of_le_length (by simp; omega),
    List.take_append_of_le_length (by simp; omega)]

/-- **The records of a datagram are handed on.** -/
theorem processFrame_frame {rounds : ℕ} (hrounds : d.records.length ≤ rounds) :
    processFrame q rounds d.frame = some (d.quotes, .finished) := by
  have hlen := d.length_data
  have hlt := d.length_lt
  have hnat : (UInt32.ofNat d.data.length).toNat = d.records.length * q.sizeof := by
    rw [UInt32.toNat_ofNat', Nat.mod_eq_of_lt (by omega), hlen]
  have hdiv : d.records.length * q.sizeof / q.sizeof = d.records.length :=
    Nat.mul_div_cancel _ q.sizeof_pos
  rw [processFrame, payload_frame]
  simp only [Option.bind_eq_bind, Option.bind_some]
  congr 1
  rw [Ostmd.Quote.processPacket, hnat]
  rcases Nat.eq_zero_or_pos d.records.length with hzero | hpos
  · rw [hzero, Nat.zero_mul, if_pos (Nat.lt_of_succ_le q.sizeof_pos), quotes,
      List.length_eq_zero_iff.1 hzero]
    rfl
  · have hle : q.sizeof ≤ d.records.length * q.sizeof := Nat.le_mul_of_pos_left _ hpos
    have hinside : d.records.length * q.sizeof ≤ (d.data ++ d.padding).length := by
      rw [List.length_append, hlen]
      omega
    have hloop := Ostmd.Quote.processLoop_eq (q := q) hinside (n := d.records.length - 1) (i := 0)
      (by omega) (show _ < rounds by omega)
    rw [Nat.zero_mul, Nat.sub_add_cancel hpos, ← List.range_eq_range'] at hloop
    rw [if_neg (by omega)]
    refine hloop.trans (congrArg (·, _) ?_)
    refine List.ext_getElem (by simp [quotes]) fun i hi hi' => ?_
    simp only [quotes, List.getElem_map, List.getElem_range, List.getElem_mapIdx]
    exact d.record_data (by simpa using hi)

end Datagram

/-- **Every frame is handled once, as it was received, in order**, and a feed gets the records
    of its datagrams. -/
theorem receiver_delivers (hvi : vi.Documented) (hw : Reachable vi pkt_bufs_n w) :
    w.handled ++ ((ids w.control.pending).map w.frames ++ (ids w.queue).map w.frames) =
        w.received ∧
      ∀ (q : Ostmd.Quote) (datagrams : List (Datagram q)) (rounds : ℕ),
        w.received = datagrams.map Datagram.frame → (∀ d ∈ datagrams, d.records.length ≤ rounds) →
        w.handled.map (processFrame q rounds) =
          (datagrams.take w.handled.length).map fun d => some (d.quotes, .finished) := by
  have hcontents := (hw.inv hvi).contents
  refine ⟨hcontents, fun q datagrams rounds hreceived hrounds => ?_⟩
  have hhandled : w.handled = (datagrams.take w.handled.length).map Datagram.frame := by
    rw [List.map_take, ← hreceived, ← hcontents, List.take_left]
  refine (congrArg (List.map _) hhandled).trans ?_
  rw [List.map_map]
  exact List.map_congr_left fun d hd => d.processFrame_frame (hrounds d (List.mem_of_mem_take hd))

/-- A datagram with one tick. -/
def oneTick : Datagram Ostmd.sse_hpf_tick where
  mac := Vector.replicate 14 0
  version := 0x45
  header := List.replicate 19 0
  ports := Vector.replicate 4 0
  checksum := Vector.replicate 2 0
  records := [Vector.replicate 96 7]
  padding := []
  length_header := by decide
  length_lt := by decide

/-- An adapter that may take each step, and gives out the oldest events. -/
def anyAdapter : EfVi where
  adapter := AdapterStep
  eventqPoll w evs_len evs rest := evs = w.queue.take evs_len ∧ rest = w.queue.drop evs_len

theorem documented_anyAdapter : anyAdapter.Documented where
  adapter := id
  poll := by
    rintro w evs_len _ _ ⟨rfl, rfl⟩
    exact ⟨List.take_append_drop _ _, List.length_take_le _ _⟩
  ready := by
    intro w evs_len hpos hne
    refine ⟨_, _, ⟨rfl, rfl⟩, ?_⟩
    rw [Ne, List.take_eq_nil_iff, not_or]
    exact ⟨by omega, hne⟩

/-- A run of 17 buffers in which a frame is handled. -/
theorem exists_handled : ∃ w : Receiver, Reachable anyAdapter 17 w ∧ w.control = .handle [] ∧
    w.handled = [oneTick.frame] ∧ w.received = [oneTick.frame] := by
  have hinit : Reachable anyAdapter 17 _ :=
    .init (fun _ => []) (show initBuffers 17 2 = some _ from rfl)
  have hrx := hinit.adapter (AdapterStep.rx oneTick.frame rfl)
  have hpoll := hrx.thread (.poll rfl ⟨rfl, rfl⟩ (by simp))
  exact ⟨_, hpoll.thread (.event rfl rfl), rfl, rfl, rfl⟩

theorem receiver_safe_one : ∃ w : Receiver, w.handled = [oneTick.frame] ∧
    w.control ≠ .aborted ∧ w.lent.Nodup ∧ 0 ≤ w.space 17 ∧
      ∃ free, IsStack w.res.next w.res.free_pkt_bufs free ∧
        w.res.free_pkt_bufs_n = free.length ∧ (w.lent ++ free).Perm (List.range 17) := by
  obtain ⟨w, hw, -, hhandled, -⟩ := exists_handled
  exact ⟨w, hhandled, receiver_safe documented_anyAdapter hw⟩

theorem receiver_live_one : (∃ rounds out, initBuffers 17 rounds = some out) ∧
    ∀ w, Reachable anyAdapter 17 w → (w.control = .poll → w.posted ≠ [] ∨ w.queue ≠ []) ∧
      (w.control ≠ .ended → ∃ v, ThreadRun anyAdapter 17 w v ∧ v.control = .poll ∧
        v.handled = w.received) :=
  receiver_live documented_anyAdapter (by decide)

theorem receiver_delivers_one : ∃ w : Receiver, w.received = [oneTick.frame] ∧
    w.handled ++ ((ids w.control.pending).map w.frames ++ (ids w.queue).map w.frames) =
        w.received ∧
      w.handled.map (processFrame Ostmd.sse_hpf_tick 1) =
        ([oneTick].take w.handled.length).map fun d => some (d.quotes, .finished) := by
  obtain ⟨w, hw, -, -, hreceived⟩ := exists_handled
  obtain ⟨hcontents, hdelivers⟩ := receiver_delivers documented_anyAdapter hw
  exact ⟨w, hreceived, hcontents, hdelivers _ [oneTick] 1 hreceived
    (List.forall_mem_singleton.2 le_rfl)⟩

end EfviReceive

end Mdd2
