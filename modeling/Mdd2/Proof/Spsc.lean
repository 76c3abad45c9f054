/-
  The ring between two threads is a queue.

  A position is the number of accesses before it, modulo `N`.  What a side knows of
  the other is a count that only grows, and it bounds the side's own accesses: the
  producer is at most `N - 1` stores ahead of the copies that it knows of, and the
  consumer never ahead of the stores that it knows of.  So the slots in use are at
  consecutive positions, fewer than `N`, and no two of them are the same.

  * `Inv.step`, `Reachable.inv`: the invariant of both sides;
  * `Inv.next`: the next item to copy is in its slot, and no later item is;
  * `ring_fifo`: what the steps do;
  * `ring_queue`: the ring is a bounded queue of the items that are published, and not
    released.
-/
import Mdd2.Lib.BoundedQueue
import Mdd2.Lib.RecentRing
import Mdd2.SPSC

namespace Mdd2

namespace SpscRing

open Published

variable {T : Type} {N : ℕ} {g g' : SpscRing T} {e : Event T}

theorem nextPos_mod (hN : 0 < N) (k : ℕ) : nextPos N (k % N) = (k + 1) % N := by
  have hlt := Nat.mod_lt k hN
  rw [nextPos, ← Nat.mod_add_mod]
  split_ifs with h
  · rw [h, Nat.mod_self]
  · exact (Nat.mod_eq_of_lt (by omega)).symm

theorem lastStore_append_cons {l rest : List (ℕ × T)} {a : ℕ × T}
    (hrest : ∀ s ∈ rest, s.1 ≠ a.1) : lastStore (l ++ a :: rest) a.1 = some a.2 := by
  have hnone : rest.reverse.find? (fun s => s.1 = a.1) = none :=
    List.find?_eq_none.2 fun s hs => by simpa using hrest s (List.mem_reverse.1 hs)
  rw [lastStore, List.reverse_append, List.reverse_cons, List.append_assoc, List.find?_append,
    hnone, Option.none_or, List.singleton_append, List.find?_cons_of_pos (by simp)]
  rfl

/-! ### The invariant -/

/-- The producer is where its positions say, after `W` stores and knowing of `K`
    copies.  Between its calls, and in `write_one` up to the store, it has published
    all of them. -/
def WriterAt (N W K pos_local pos_cached published : ℕ) : Writer T → Prop
  | .idle => pos_local = W % N ∧ pos_cached = K % N ∧ published = W
  | .loop op w rc input => w = W % N ∧ rc = K % N ∧
      (op = .writeOne → input.length ≤ 1 ∧ (input ≠ [] → pos_local = W % N ∧ published = W))
  | .full op w rc _ => w = W % N ∧ rc = K % N ∧ nextPos N w = rc ∧
      (op = .writeOne → pos_local = W % N ∧ published = W)

/-- The consumer is where its positions say, after `R` copies and knowing of `S`
    stores; what it copied is returned, or in the output of the call. -/
def ReaderAt (N R S pos_local pos_cached : ℕ) (copied returned : List T) : Reader T → Prop
  | .idle => pos_local = R % N ∧ pos_cached = S % N ∧ returned = copied
  | .loop _ r wc _ output | .empty _ r wc _ output =>
      r = R % N ∧ wc = S % N ∧ returned ++ output = copied

structure Inv (N : ℕ) (g : SpscRing T) : Prop where
  written : Valid N g.m_write_pos g.stores.length
  released : Valid N g.m_read_pos g.copies.length
  slots : ∀ i s, g.stores[i]? = some s → s.1 = i % N
  copied : g.copies <+: g.stores
  readSeen_lt : g.readSeen < g.m_read_pos.length
  writeSeen_lt : g.writeSeen < g.m_write_pos.length
  room : g.stores.length ≤ g.knownCopies + (N - 1)
  avail : g.copies.length ≤ g.knownStores
  writerAt : WriterAt N g.stores.length g.knownCopies g.m_write_pos_local g.m_read_pos_cached
    (latest g.m_write_pos).done g.writer
  readerAt : ReaderAt N g.copies.length g.knownStores g.m_read_pos_local g.m_write_pos_cached
    (g.copies.map Prod.snd) g.returned g.reader

theorem inv_init (N : ℕ) : Inv N (init : SpscRing T) where
  written := valid_init N
  released := valid_init N
  slots := by simp [init]
  copied := List.prefix_rfl
  readSeen_lt := by simp [init]
  writeSeen_lt := by simp [init]
  room := by simp [init]
  avail := by simp [init]
  writerAt := by simp [WriterAt, init, knownCopies, load, latest]
  readerAt := by simp [ReaderAt, init, knownStores, load]

namespace Inv

theorem writer_of (h : Inv N g) {pc : Writer T} (hpc : g.writer = pc) :
    WriterAt N g.stores.length g.knownCopies g.m_write_pos_local g.m_read_pos_cached
      (latest g.m_write_pos).done pc := hpc ▸ h.writerAt

theorem reader_of (h : Inv N g) {pc : Reader T} (hpc : g.reader = pc) :
    ReaderAt N g.copies.length g.knownStores g.m_read_pos_local g.m_write_pos_cached
      (g.copies.map Prod.snd) g.returned pc := hpc ▸ h.readerAt

theorem knownCopies_le (h : Inv N g) : g.knownCopies ≤ g.copies.length :=
  h.released.load_le h.readSeen_lt

theorem knownStores_le (h : Inv N g) : g.knownStores ≤ g.stores.length :=
  h.written.load_le h.writeSeen_lt

/-- The positions of a full ring are `N - 1` apart. -/
theorem full (hN : 0 < N) (h : Inv N g) (hfull : (g.stores.length + 1) % N = g.knownCopies % N) :
    g.stores.length = g.knownCopies + (N - 1) := by
  have hle := h.copied.length_le
  have hknown := h.knownCopies_le
  have hroom := h.room
  by_contra hne
  exact RecentRing.ne_of_window (n := N) (j := g.knownCopies) (m := g.stores.length + 1)
    (by omega) (by omega) hfull.symm

theorem lt_of_ne (h : Inv N g) (hne : g.copies.length % N ≠ g.knownStores % N) :
    g.copies.length < g.knownStores :=
  lt_of_le_of_ne h.avail fun heq => hne (by rw [heq])

/-- The stores that are not released, as far as the producer knows, are not into the
    slot of the next one. -/
theorem unreleased_ne (hN : 0 < N) (h : Inv N g) :
    ∀ s ∈ g.stores.drop g.knownCopies, s.1 ≠ g.stores.length % N := by
  intro s hs
  obtain ⟨j, hj, rfl⟩ := List.mem_iff_getElem.1 hs
  rw [List.length_drop] at hj
  have hroom := h.room
  have hpos := h.slots (g.knownCopies + j) _ (List.getElem?_eq_getElem (by omega))
  rw [List.getElem_drop, hpos]
  exact RecentRing.ne_of_window (by omega) (by omega)

/-- **The next item to copy is in its slot, and no later item is.** -/
theorem next (h : Inv N g) (hlt : g.copies.length < g.stores.length) :
    ∃ a rest, g.stores = g.copies ++ a :: rest ∧ a.1 = g.copies.length % N ∧
      ∀ s ∈ rest, s.1 ≠ a.1 := by
  obtain ⟨tail, htail⟩ := h.copied
  have hlen := congrArg List.length htail
  rw [List.length_append] at hlen
  cases tail with
  | nil => simp at hlen; omega
  | cons a rest =>
    have ha : a.1 = g.copies.length % N := h.slots _ _ (by simp [← htail])
    refine ⟨a, rest, htail.symm, ha, fun s hs => ?_⟩
    obtain ⟨j, hj, rfl⟩ := List.mem_iff_getElem.1 hs
    have hpos : rest[j].1 = (g.copies.length + 1 + j) % N := by
      refine h.slots _ _ ?_
      rw [← htail, List.getElem?_append_right (by omega),
        show g.copies.length + 1 + j - g.copies.length = j + 1 by omega, List.getElem?_cons_succ,
        List.getElem?_eq_getElem hj]
    have hroom := h.room
    have hknown := h.knownCopies_le
    rw [hpos, ha]
    rw [List.length_cons] at hlen
    exact (RecentRing.ne_of_window (by omega) (by omega)).symm

end Inv

/-! ### The steps of the producer -/

namespace Inv

theorem callWrite (h : Inv N g) {op : WriteOp} {input : List T} (hpc : g.writer = .idle)
    (hone : op = .writeOne → input.length = 1) :
    Inv N { g with writer := .loop op g.m_write_pos_local g.m_read_pos_cached input } := by
  obtain ⟨hw, hrc, hpub⟩ := h.writer_of hpc
  exact { h with writerAt := ⟨hw, hrc, fun hop => ⟨(hone hop).le, fun _ => ⟨hw, hpub⟩⟩⟩ }

theorem store (hN : 0 < N) (h : Inv N g) {op : WriteOp} {w rc : ℕ} {item : T} {input : List T}
    (hpc : g.writer = .loop op w rc (item :: input)) (hslot : nextPos N w ≠ rc) :
    Inv N { g with
      stores := g.stores ++ [(w, item)]
      writer := .loop op (nextPos N w) rc input } := by
  obtain ⟨rfl, rfl, hone⟩ := h.writer_of hpc
  have hlen : (g.stores ++ [(g.stores.length % N, item)]).length = g.stores.length + 1 := by simp
  rw [nextPos_mod hN] at hslot ⊢
  refine { h with
    written := h.written.mono_total (by simp)
    slots := fun i s hs => ?_
    copied := h.copied.trans (List.prefix_append _ _)
    room := ?_
    writerAt := ⟨by rw [hlen], rfl, fun hop => ?_⟩ }
  · rcases lt_trichotomy i g.stores.length with hi | rfl | hi
    · rw [List.getElem?_append_left hi] at hs
      exact h.slots i s hs
    · rw [List.getElem?_concat_length, Option.some_inj] at hs
      rw [← hs]
    · rw [List.getElem?_eq_none (hlen.le.trans hi)] at hs
      cases hs
  · -- the ring is not full
    have hroom := h.room
    have hne : g.stores.length ≠ g.knownCopies + (N - 1) := by
      intro heq
      refine hslot ?_
      rw [heq, show g.knownCopies + (N - 1) + 1 = g.knownCopies + N by omega, Nat.add_mod_right]
    rw [hlen]
    show _ ≤ g.knownCopies + (N - 1)
    omega
  · obtain ⟨hle, -⟩ := hone hop
    rw [List.length_cons] at hle
    obtain rfl : input = [] := List.eq_nil_of_length_eq_zero (by omega)
    exact ⟨by simp, fun hne => absurd rfl hne⟩

theorem loadRead (h : Inv N g) {op : WriteOp} {w rc k : ℕ} {item : T} {input : List T}
    (hpc : g.writer = .loop op w rc (item :: input)) (hle : g.readSeen ≤ k)
    (hlt : k < g.m_read_pos.length) :
    Inv N { g with
      readSeen := k
      writer :=
        if nextPos N w = (load g.m_read_pos k).pos then
          .full op w (load g.m_read_pos k).pos (item :: input)
        else .loop op w (load g.m_read_pos k).pos (item :: input) } := by
  obtain ⟨rfl, -, hone⟩ := h.writer_of hpc
  have hpos := h.released.load_pos hlt
  refine { h with
    readSeen_lt := hlt
    room := h.room.trans (Nat.add_le_add_right (h.released.load_le_load hle hlt) _)
    writerAt := ?_ }
  show WriterAt N _ _ _ _ _ (if _ then _ else _)
  split_ifs with hfull
  · exact ⟨rfl, hpos, hfull, fun hop => (hone hop).2 (List.cons_ne_nil _ _)⟩
  · exact ⟨rfl, hpos, hone⟩

/-- A publication of the producer, with what follows it. -/
theorem publishWrite (h : Inv N g) {pos_local pos_cached : ℕ} {pc : Writer T}
    (hpc : WriterAt N g.stores.length g.knownCopies pos_local pos_cached g.stores.length pc) :
    Inv N { g.publishWrite (g.stores.length % N) with
      m_write_pos_local := pos_local
      m_read_pos_cached := pos_cached
      writer := pc } := by
  have hknown : ∀ l, load (g.m_write_pos ++ l) g.writeSeen = load g.m_write_pos g.writeSeen :=
    load_append h.writeSeen_lt
  refine { h with
    written := h.written.publish
    writeSeen_lt := h.writeSeen_lt.trans_le (by simp [SpscRing.publishWrite])
    avail := ?_
    writerAt := ?_
    readerAt := ?_ }
  · simpa only [knownStores, SpscRing.publishWrite, hknown] using h.avail
  · simpa only [knownCopies, SpscRing.publishWrite, latest_append] using hpc
  · simpa only [knownStores, SpscRing.publishWrite, hknown] using h.readerAt

/-! ### The steps of the consumer -/

theorem callRead (h : Inv N g) {op : ReadOp} {room : ℕ} (hpc : g.reader = .idle) :
    Inv N { g with
      reader := .loop op g.m_read_pos_local g.m_write_pos_cached room [] } := by
  obtain ⟨hr, hwc, hret⟩ := h.reader_of hpc
  exact { h with readerAt := ⟨hr, hwc, (List.append_nil _).trans hret⟩ }

/-- The item copied is the next one, and no store that the consumer does not know of
    is into its slot. -/
theorem copied_item (h : Inv N g) {op : ReadOp} {r wc room : ℕ} {output : List T} {item : T}
    (hpc : g.reader = .loop op r wc (room + 1) output) (hne : r ≠ wc)
    (hitem : ∀ item', g.settled r = some item' → item = item') :
    (∀ s ∈ g.stores.drop g.knownStores, s.1 ≠ r) ∧
      g.copies ++ [(r, item)] <+: g.stores := by
  obtain ⟨rfl, rfl, -⟩ := h.reader_of hpc
  have hlt := h.lt_of_ne hne
  obtain ⟨a, rest, hsplit, ha, hrest⟩ := h.next (hlt.trans_le h.knownStores_le)
  obtain ⟨j, hj⟩ := Nat.exists_eq_add_of_lt hlt
  have hknown : g.knownStores = g.copies.length + (j + 1) := hj
  have hdrop : g.stores.drop g.knownStores = rest.drop j := by
    rw [hsplit, hknown, ← List.drop_drop, List.drop_left, List.drop_succ_cons]
  have htake : g.stores.take g.knownStores = g.copies ++ a :: rest.take j := by
    rw [hsplit, hknown, List.take_length_add_append, List.take_succ_cons]
  have hunknown : ∀ s ∈ g.stores.drop g.knownStores, s.1 ≠ g.copies.length % N := by
    intro s hs
    rw [hdrop] at hs
    rw [← ha]
    exact hrest s (List.mem_of_mem_drop hs)
  refine ⟨hunknown, rest, ?_⟩
  have hlast : g.settled (g.copies.length % N) = some a.2 := by
    rw [settled, if_pos hunknown, htake, ← ha]
    exact lastStore_append_cons fun s hs => hrest s (List.mem_of_mem_take hs)
  rw [hitem _ hlast, ← ha, List.append_assoc]
  exact hsplit.symm

theorem copy (hN : 0 < N) (h : Inv N g) {op : ReadOp} {r wc room : ℕ} {output : List T} {item : T}
    (hpc : g.reader = .loop op r wc (room + 1) output) (hne : r ≠ wc)
    (hitem : ∀ item', g.settled r = some item' → item = item') :
    Inv N { g with
      copies := g.copies ++ [(r, item)]
      reader := .loop op (nextPos N r) wc room (output ++ [item]) } := by
  have hcopied := (h.copied_item hpc hne hitem).2
  obtain ⟨rfl, rfl, hout⟩ := h.reader_of hpc
  have hlen : (g.copies ++ [(g.copies.length % N, item)]).length = g.copies.length + 1 := by simp
  refine { h with
    released := h.released.mono_total (by simp)
    copied := hcopied
    avail := hlen.le.trans (h.lt_of_ne hne)
    readerAt := ⟨by rw [nextPos_mod hN, hlen], rfl, ?_⟩ }
  rw [← List.append_assoc, hout, List.map_append]
  rfl

theorem loadWrite (h : Inv N g) {op : ReadOp} {r wc room k : ℕ} {output : List T}
    (hpc : g.reader = .loop op r wc (room + 1) output) (hle : g.writeSeen ≤ k)
    (hlt : k < g.m_write_pos.length) :
    Inv N { g with
      writeSeen := k
      reader :=
        if r = (load g.m_write_pos k).pos then
          .empty op r (load g.m_write_pos k).pos (room + 1) output
        else .loop op r (load g.m_write_pos k).pos (room + 1) output } := by
  obtain ⟨rfl, -, hout⟩ := h.reader_of hpc
  have hpos := h.written.load_pos hlt
  refine { h with
    writeSeen_lt := hlt
    avail := h.avail.trans (h.written.load_le_load hle hlt)
    readerAt := ?_ }
  show ReaderAt N _ _ _ _ _ _ (if _ then _ else _)
  split_ifs
  · exact ⟨rfl, hpos, hout⟩
  · exact ⟨rfl, hpos, hout⟩

/-- A publication of the consumer, with what follows it. -/
theorem publishRead (h : Inv N g) {pos_local pos_cached : ℕ} {pc : Reader T} {returned : List T}
    (hpc : ReaderAt N g.copies.length g.knownStores pos_local pos_cached
      (g.copies.map Prod.snd) returned pc) :
    Inv N { g.publishRead (g.copies.length % N) with
      m_read_pos_local := pos_local
      m_write_pos_cached := pos_cached
      reader := pc
      returned := returned } := by
  have hknown : ∀ l, load (g.m_read_pos ++ l) g.readSeen = load g.m_read_pos g.readSeen :=
    load_append h.readSeen_lt
  refine { h with
    released := h.released.publish
    readSeen_lt := h.readSeen_lt.trans_le (by simp [SpscRing.publishRead])
    room := ?_
    writerAt := ?_
    readerAt := hpc }
  · simpa only [knownCopies, SpscRing.publishRead, hknown] using h.room
  · simpa only [knownCopies, SpscRing.publishRead, hknown] using h.writerAt

end Inv

/-! ### Every run -/

theorem Inv.step (hN : 0 < N) (h : Inv N g) (hs : Step N g e g') : Inv N g' := by
  cases hs with
  | callWrite hpc hone => exact h.callWrite hpc hone
  | store hpc hslot => exact h.store hN hpc hslot
  | loadRead k hpc _ hle hlt => exact h.loadRead hpc hle hlt
  | returnWrite hpc =>
    obtain ⟨rfl, hrc, -⟩ := h.writer_of hpc
    exact h.publishWrite ⟨rfl, hrc, rfl⟩
  | rejectOne hpc =>
    -- the local position is not assigned, and still is the one published
    obtain ⟨rfl, hrc, -, hone⟩ := h.writer_of hpc
    exact h.publishWrite ⟨(hone rfl).1, hrc, rfl⟩
  | breakWrite hpc =>
    obtain ⟨rfl, hrc, -⟩ := h.writer_of hpc
    exact h.publishWrite ⟨rfl, hrc, rfl⟩
  | spinWrite hpc =>
    obtain ⟨rfl, hrc, -⟩ := h.writer_of hpc
    exact h.publishWrite ⟨rfl, hrc, fun hop => by cases hop⟩
  | callRead hpc => exact h.callRead hpc
  | copy hpc hne hitem => exact h.copy hN hpc hne hitem
  | loadWrite k hpc _ hle hlt => exact h.loadWrite hpc hle hlt
  | returnRead hpc =>
    obtain ⟨rfl, hwc, hout⟩ := h.reader_of hpc
    exact h.publishRead ⟨rfl, hwc, hout⟩
  | breakRead hpc =>
    obtain ⟨rfl, hwc, hout⟩ := h.reader_of hpc
    exact h.publishRead ⟨rfl, hwc, hout⟩
  | spinRead hpc =>
    obtain ⟨rfl, hwc, hout⟩ := h.reader_of hpc
    exact h.publishRead ⟨rfl, hwc, hout⟩

theorem Reachable.inv (hN : 0 < N) (hg : Reachable N g) : Inv N g := by
  induction hg with
  | init => exact inv_init N
  | step _ hs ih => exact ih.step hN hs

/-- A slot is stored into only when the item that was in it is copied, and the
    producer knows of the copy. -/
theorem Inv.store_slot (hN : 0 < N) (h : Inv N g) {pos : ℕ} {item : T}
    (hs : Step N g (.store pos item) g') :
    (∀ s ∈ g.stores.drop g.copies.length, s.1 ≠ pos) ∧
      ∀ c ∈ g.copies.drop g.knownCopies, c.1 ≠ pos := by
  cases hs with
  | store hpc hslot =>
    obtain ⟨rfl, -⟩ := h.writer_of hpc
    have hne := h.unreleased_ne hN
    refine ⟨fun s hs => hne s ?_, fun c hc => hne c ?_⟩
    · exact List.drop_subset_drop_left g.stores h.knownCopies_le hs
    · exact (h.copied.drop _).subset hc

/-- A slot is copied out of only when the consumer knows of all stores into it, and
    yields the next item. -/
theorem Inv.copy_item (h : Inv N g) {pos : ℕ} {item : T} (hs : Step N g (.copy pos item) g') :
    (∀ s ∈ g.stores.drop g.knownStores, s.1 ≠ pos) ∧
      g.accepted[g.copies.length]? = some item := by
  cases hs with
  | copy hpc hne hitem =>
    obtain ⟨hunknown, rest, hrest⟩ := h.copied_item hpc hne hitem
    refine ⟨hunknown, ?_⟩
    rw [accepted, ← hrest]
    simp

/-- `write_one` returns false only if the ring was full, and leaves it as it was. -/
theorem Inv.reject_full (hN : 0 < N) (h : Inv N g) (hs : Step N g .reject g') :
    g.accepted.length = g.knownCopies + (N - 1) ∧
      g'.accepted = g.accepted ∧ g'.copies = g.copies ∧ g'.content = g.content := by
  cases hs with
  | rejectOne hpc =>
    obtain ⟨rfl, hrc, hfull, hone⟩ := h.writer_of hpc
    rw [nextPos_mod hN, hrc] at hfull
    refine ⟨(List.length_map _).trans (h.full hN hfull), rfl, rfl, ?_⟩
    simp only [content, SpscRing.publishWrite, latest_append, (hone rfl).2]
    rfl

theorem Inv.returned_prefix (h : Inv N g) : g.returned <+: g.copies.map Prod.snd := by
  have hat := h.readerAt
  cases hpc : g.reader with
  | idle =>
    rw [hpc] at hat
    exact hat.2.2 ▸ List.prefix_rfl
  | loop | empty =>
    rw [hpc] at hat
    exact hat.2.2 ▸ List.prefix_append _ _

/-- **The ring is a queue.**  In every run, the items returned are the first ones
    accepted, in order, and each was copied out of the slot into which it was stored.
    A store into a slot comes after the copies of the items that were in it, and these
    are known to the producer; a copy comes after all stores into the slot, these are
    known to the consumer, and it yields the next item.  `write_one` returns false only
    if `N - 1` items were not released in the position that it loaded, and then the
    content is unchanged. -/
theorem ring_fifo (hN : 0 < N) (hg : Reachable N g) :
    g.returned <+: g.accepted ∧ g.copies <+: g.stores ∧
    (∀ pos item g', Step N g (.store pos item) g' →
      (∀ s ∈ g.stores.drop g.copies.length, s.1 ≠ pos) ∧
      ∀ c ∈ g.copies.drop g.knownCopies, c.1 ≠ pos) ∧
    (∀ pos item g', Step N g (.copy pos item) g' →
      (∀ s ∈ g.stores.drop g.knownStores, s.1 ≠ pos) ∧
      g.accepted[g.copies.length]? = some item) ∧
    (∀ g', Step N g .reject g' →
      g.accepted.length = g.knownCopies + (N - 1) ∧
      g'.accepted = g.accepted ∧ g'.copies = g.copies ∧ g'.content = g.content) := by
  have h := hg.inv hN
  refine ⟨h.returned_prefix.trans (h.copied.map _), h.copied, ?_, ?_, ?_⟩
  · intro pos item g' hs
    exact h.store_slot hN hs
  · intro pos item g' hs
    exact h.copy_item hs
  · intro g' hs
    exact h.reject_full hN hs

/-- Two slots: one item goes through, then `write_one` fails while another is in the
    ring. -/
theorem ring_fifo_two : ∃ g : SpscRing ℕ, Reachable 2 g ∧ g.returned = [7] ∧
    g.accepted = [7, 8] ∧ (∃ g', Step 2 g .reject g') ∧
    g.returned <+: g.accepted ∧ g.copies <+: g.stores ∧
    ∀ g', Step 2 g .reject g' →
      g.accepted.length = g.knownCopies + 1 ∧
      g'.accepted = g.accepted ∧ g'.copies = g.copies ∧ g'.content = g.content := by
  have h1 := Reachable.init.step (@Step.callWrite ℕ 2 _ .writeOne [7] rfl fun _ => rfl)
  have h2 := (h1.step (.store rfl (by decide))).step (.returnWrite rfl)
  have h3 := h2.step (@Step.callRead ℕ 2 _ .readSome 1 rfl)
  have h4 := h3.step (.loadWrite 1 rfl rfl (Nat.zero_le _) (by decide))
  have h5 := (h4.step (@Step.copy ℕ 2 _ .readSome 0 1 0 [] 7 rfl (by decide)
    fun _ hi => (Option.some.inj hi))).step (.returnRead rfl)
  have h6 := h5.step (@Step.callWrite ℕ 2 _ .writeOne [8] rfl fun _ => rfl)
  have h7 := h6.step (.loadRead 1 rfl (by decide) (Nat.zero_le _) (by decide))
  have h8 := (h7.step (.store rfl (by decide))).step (.returnWrite rfl)
  have h9 := h8.step (@Step.callWrite ℕ 2 _ .writeOne [9] rfl fun _ => rfl)
  have h10 := h9.step (.loadRead 1 rfl (by decide) (Nat.le_refl _) (by decide))
  obtain ⟨hret, hcop, -, -, hrej⟩ := ring_fifo (N := 2) (by decide) h10
  exact ⟨_, h10, rfl, rfl, ⟨_, .rejectOne rfl⟩, hret, hcop, hrej⟩

/-! ### The bounded queue -/

/-- The items that the producer has published. -/
def published (g : SpscRing T) : List T := g.accepted.take (latest g.m_write_pos).done

/-- The items that the consumer has released. -/
def released (g : SpscRing T) : List T := g.accepted.take (latest g.m_read_pos).done

/-- The counts of both sides, with what each knows of the other. -/
theorem Inv.counts (h : Inv N g) :
    (latest g.m_read_pos).done ≤ g.copies.length ∧ g.copies.length ≤ (latest g.m_write_pos).done ∧
      (latest g.m_write_pos).done ≤ g.stores.length ∧
      g.stores.length ≤ (latest g.m_read_pos).done + (N - 1) := by
  have hlatest : ∀ l : List Publication, latest l = load l (l.length - 1) := fun l => by
    rw [latest, load, List.getLastD_eq_getLast?, List.getLast?_eq_getElem?,
      List.getD_eq_getElem?_getD]
  have hwrite := h.writeSeen_lt
  have hread := h.readSeen_lt
  have hstores : g.knownStores ≤ (latest g.m_write_pos).done :=
    hlatest g.m_write_pos ▸ h.written.load_le_load (by omega) (by omega)
  have hcopies : g.knownCopies ≤ (latest g.m_read_pos).done :=
    hlatest g.m_read_pos ▸ h.released.load_le_load (by omega) (by omega)
  refine ⟨?_, h.avail.trans hstores, ?_, h.room.trans (Nat.add_le_add_right hcopies _)⟩
  · exact hlatest g.m_read_pos ▸ h.released.load_le (by omega)
  · exact hlatest g.m_write_pos ▸ h.written.load_le (by omega)

theorem Inv.published_eq (h : Inv N g) : g.published = g.released ++ g.content := by
  obtain ⟨hr, hw, -⟩ := h.counts
  have htake : g.released = g.published.take (latest g.m_read_pos).done := by
    rw [SpscRing.released, published, List.take_take, min_eq_left (hr.trans hw)]
  rw [htake, content, ← published, List.take_append_drop]

theorem Inv.content_lt (hN : 0 < N) (h : Inv N g) : g.content.length < N := by
  obtain ⟨-, -, -, hroom⟩ := h.counts
  rw [content, List.length_drop, List.length_take, accepted, List.length_map]
  omega

/-- In a step, one side may publish what it has done since. -/
theorem Inv.publishes (h : Inv N g) (hs : Step N g e g') : g.accepted <+: g'.accepted ∧
    ((latest g.m_write_pos).done ≤ (latest g'.m_write_pos).done ∧ g'.m_read_pos = g.m_read_pos ∨
      (latest g.m_read_pos).done ≤ (latest g'.m_read_pos).done ∧
        g'.m_write_pos = g.m_write_pos) := by
  obtain ⟨hr, -, hw, -⟩ := h.counts
  cases hs with
  | store => exact ⟨(List.prefix_append _ _).map _, .inl ⟨le_rfl, rfl⟩⟩
  | returnWrite | rejectOne | breakWrite | spinWrite =>
    refine ⟨List.prefix_rfl, .inl ⟨?_, rfl⟩⟩
    simpa only [SpscRing.publishWrite, latest_append] using hw
  | returnRead | breakRead | spinRead =>
    refine ⟨List.prefix_rfl, .inr ⟨?_, rfl⟩⟩
    simpa only [SpscRing.publishRead, latest_append] using hr
  | callWrite | loadRead | callRead | copy | loadWrite =>
    exact ⟨List.prefix_rfl, .inl ⟨le_rfl, rfl⟩⟩

theorem Inv.queueStep (hN : 0 < N) (h : Inv N g) (hs : Step N g e g') :
    ∃ i o, BoundedQueue.Step N g.content i o g'.content ∧ g'.published = g.published ++ i ∧
      g'.released = g.released ++ o := by
  have h' := h.step hN hs
  obtain ⟨haccepted, hpublishes⟩ := h.publishes hs
  obtain ⟨hr, hw, hlen, -⟩ := h.counts
  have heq := h.published_eq
  have heq' := h'.published_eq
  -- what was accepted stays
  have htake : ∀ {k : ℕ}, k ≤ g.stores.length → g'.accepted.take k = g.accepted.take k := by
    obtain ⟨l, hl⟩ := haccepted
    intro k hk
    rw [← hl, List.take_append_of_le_length (by rwa [accepted, List.length_map])]
  rcases hpublishes with ⟨hle, hread⟩ | ⟨hle, hwrite⟩
  · obtain ⟨i, hi⟩ : g.published <+: g'.published := by
      rw [published, ← htake hlen]
      exact List.take_prefix_take_left hle
    have hreleased : g'.released = g.released := by
      rw [SpscRing.released, hread, htake (by omega), SpscRing.released]
    have hcontent : g'.content = g.content ++ i := by
      rw [heq', hreleased, heq, List.append_assoc] at hi
      exact (List.append_cancel_left hi).symm
    exact ⟨i, [], hcontent ▸ .push _ i (hcontent ▸ h'.content_lt hN), hi.symm,
      by rw [hreleased, List.append_nil]⟩
  · obtain ⟨o, ho⟩ : g.released <+: g'.released := by
      rw [SpscRing.released, ← htake (by omega)]
      exact List.take_prefix_take_left hle
    have hpublished : g'.published = g.published := by
      rw [published, hwrite, htake hlen, published]
    have hcontent : g.content = o ++ g'.content := by
      rw [hpublished, heq, ← ho, List.append_assoc] at heq'
      exact List.append_cancel_left heq'
    have hstep := BoundedQueue.Step.pop (n := N) g.content o.length
    rw [hcontent, List.take_left, List.drop_left] at hstep
    exact ⟨[], o, hcontent ▸ hstep, by rw [hpublished, List.append_nil], ho.symm⟩

/-- The consumer publishes at the end of each call. -/
theorem Step.reader_idle (hs : Step N g e g')
    (h : g.reader = .idle → (latest g.m_read_pos).done = g.copies.length) :
    g'.reader = .idle → (latest g'.m_read_pos).done = g'.copies.length := by
  cases hs with
  | callWrite | store | loadRead | returnWrite | rejectOne | breakWrite | spinWrite => exact h
  | returnRead | breakRead | spinRead =>
    intro
    simp only [SpscRing.publishRead, latest_append]
  | callRead | copy => exact fun hidle => absurd hidle (by simp)
  | loadWrite =>
    intro hidle
    dsimp only at hidle
    split_ifs at hidle

theorem Reachable.reader_idle (hg : Reachable N g) :
    g.reader = .idle → (latest g.m_read_pos).done = g.copies.length := by
  induction hg with
  | init => exact fun _ => rfl
  | step _ hs ih => exact hs.reader_idle ih

theorem Reachable.run (hN : 0 < N) (hg : Reachable N g) :
    BoundedQueue.Run N g.published g.released g.content := by
  induction hg with
  | init => exact .init
  | step hg hs ih =>
    obtain ⟨i, o, hstep, hpublished, hreleased⟩ := (hg.inv hN).queueStep hN hs
    rw [hpublished, hreleased]
    exact ih.step hstep

/-- **The ring is a bounded queue** of the items that are published and not released.
    Between its calls, the producer has published all that was accepted, and the consumer
    has released all that its calls returned. -/
theorem ring_queue (hN : 0 < N) (hg : Reachable N g) :
    BoundedQueue.Run N g.published g.released g.content ∧
      (g.writer = .idle → g.published = g.accepted) ∧
      (g.reader = .idle → g.released = g.returned) := by
  have hinv := hg.inv hN
  refine ⟨hg.run hN, fun hidle => ?_, fun hidle => ?_⟩
  · obtain ⟨-, -, hlatest⟩ := hinv.writer_of hidle
    rw [published, hlatest, List.take_of_length_le (by rw [accepted, List.length_map])]
  · obtain ⟨-, -, hreturned⟩ := hinv.reader_of hidle
    obtain ⟨l, hl⟩ := hinv.copied
    rw [hreturned, released, hg.reader_idle hidle, accepted, ← hl, List.map_append,
      List.take_append_of_le_length (by rw [List.length_map]),
      List.take_of_length_le (by rw [List.length_map])]

end SpscRing

end Mdd2
