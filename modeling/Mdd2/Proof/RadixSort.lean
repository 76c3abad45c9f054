/-
  `radixSort` is a stable sort by the key.

  An array of `num * size` words is a list of records (`exists_records`), and a
  pass is a bucket pass over the records by one digit of the key
  (`kernel_eq`): its counters stay in the histogram, and its places in the
  scratch.  After the passes for all four digits, the records are ordered by the
  whole key (`radixSort_stable`).
-/
import Mdd2.Lib.CountingSort
import Mdd2.RadixSort

namespace Mdd2

namespace RadixSort

open CountingSort

/-! ## Records -/

/-- A record. -/
abbrev Record (size : ℕ) := Vector UInt32 size

variable {size : ℕ}

/-- The words of an array of records. -/
def words (rs : List (Record size)) : Words := rs.flatMap Vector.toList

theorem words_append (rs rs' : List (Record size)) : words (rs ++ rs') = words rs ++ words rs' := by
  simp [words]

theorem words_cons (r : Record size) (rs : List (Record size)) :
    words (r :: rs) = r.toList ++ words rs := by
  simp [words]

theorem length_words (rs : List (Record size)) : (words rs).length = rs.length * size := by
  induction rs with
  | nil => simp [words]
  | cons r rs ih =>
    rw [words_cons, List.length_append, ih, Vector.length_toList, List.length_cons, Nat.succ_mul]
    omega

/-- The words around a record. -/
theorem words_split (rs : List (Record size)) {i : ℕ} (hi : i < rs.length) :
    words rs = words (rs.take i) ++ (rs[i].toList ++ words (rs.drop (i + 1))) ∧
      (words (rs.take i)).length = i * size := by
  constructor
  · rw [← words_cons, ← words_append, List.getElem_cons_drop, List.take_append_drop]
  · rw [length_words, List.length_take, Nat.min_eq_left hi.le]

theorem getElem?_words {rs : List (Record size)} {i offset : ℕ} (hi : i < rs.length)
    (ho : offset < size) : (words rs)[i * size + offset]? = some (rs[i][offset]) := by
  obtain ⟨hsplit, hlen⟩ := words_split rs hi
  rw [hsplit, List.getElem?_append_right (by omega), hlen, Nat.add_sub_cancel_left,
    List.getElem?_append_left (by simpa using ho)]
  simp [ho]

theorem read_words {rs : List (Record size)} {i : ℕ} (hi : i < rs.length) :
    (words rs).read (i * size) size = some rs[i].toList := by
  obtain ⟨hsplit, hlen⟩ := words_split rs hi
  have hle : i * size + size ≤ (words rs).length := by
    rw [length_words, ← Nat.succ_mul]
    exact Nat.mul_le_mul_right size hi
  rw [Words.read, if_pos hle, hsplit, ← hlen, List.drop_left, List.take_left' (by simp)]

theorem write_words {rs : List (Record size)} {i : ℕ} (hi : i < rs.length) (r : Record size) :
    (words rs).write (i * size) r.toList = some (words (rs.set i r)) := by
  obtain ⟨hsplit, hlen⟩ := words_split rs hi
  have hle : i * size + size ≤ (words rs).length := by
    rw [length_words, ← Nat.succ_mul]
    exact Nat.mul_le_mul_right size hi
  have hdrop : (words rs).drop (i * size + size) = words (rs.drop (i + 1)) := by
    rw [hsplit, ← List.append_assoc, List.drop_left' (by simp [hlen])]
  have htake : (words rs).take (i * size) = words (rs.take i) := by
    rw [hsplit, ← hlen, List.take_left]
  rw [Words.write, Vector.length_toList, if_pos hle, hdrop, htake,
    List.set_eq_take_append_cons_drop, if_pos hi, words_append, words_cons, List.append_assoc]

/-- Any words are records. -/
theorem exists_records {mem : Words} {num : ℕ} (h : mem.length = num * size) :
    ∃ rs : List (Record size), rs.length = num ∧ words rs = mem := by
  induction num generalizing mem with
  | zero => exact ⟨[], rfl, by simpa [words] using h⟩
  | succ num ih =>
    rw [Nat.succ_mul] at h
    have hdrop : (mem.drop size).length = num * size := by simp [h]
    obtain ⟨rs, hlen, hrs⟩ := ih hdrop
    have htake : (mem.take size).length = size := by simp [h]
    refine ⟨⟨(mem.take size).toArray, by simpa using htake⟩ :: rs, by simp [hlen], ?_⟩
    rw [words_cons, hrs]
    simp

/-- A loop over the numbers of the records. -/
theorem foldlM_range {σ : Type} {rs : List (Record size)} {f : σ → ℕ → Option σ}
    {g : σ → Record size → Option σ} (h : ∀ s i, (hi : i < rs.length) → f s i = g s rs[i]) (s : σ) :
    (List.range rs.length).foldlM f s = rs.foldlM g s := by
  induction rs using List.reverseRecOn with
  | nil => rfl
  | append_singleton rs r ih =>
    have hinit : (List.range rs.length).foldlM f s = rs.foldlM g s := by
      refine ih fun s i hi => ?_
      rw [h s i (by simp; omega), List.getElem_append_left hi]
    rw [List.length_append, List.length_singleton, List.range_succ, List.foldlM_append,
      List.foldlM_append, hinit]
    congr 1
    funext s
    have hlast := h s rs.length (by simp)
    simp only [List.foldlM_cons, List.foldlM_nil, hlast]
    simp

/-! ## Counters -/

/-- The counters of the bins. -/
def counters (N : ℕ) (c : ℕ → ℕ) : Words := (List.range N).map fun b => UInt32.ofNat (c b)

theorem getElem?_counters {N b : ℕ} (hb : b < N) (c : ℕ → ℕ) :
    (counters N c)[b]? = some (UInt32.ofNat (c b)) := by
  simp [counters, hb]

theorem set_counters (N b : ℕ) (c : ℕ → ℕ) (n : ℕ) :
    (counters N c).set b (UInt32.ofNat n) = counters N (Function.update c b n) := by
  apply List.ext_getElem?
  intro i
  by_cases hib : b = i
  · subst hib
    by_cases hb : b < N <;> simp [counters, hb]
  · by_cases hi : i < N <;> simp [counters, hi, hib, Function.update_of_ne (Ne.symm hib)]

theorem length_counters (N : ℕ) (c : ℕ → ℕ) : (counters N c).length = N := by simp [counters]

theorem clear_counters {N : ℕ} {count : Words} (h : count.length = N) :
    count.write 0 (List.replicate N 0) = some (counters N fun _ => 0) := by
  rw [Words.write, if_pos (by simp [h])]
  simp [counters, h]

/-! ## A pass -/

theorem toNat_numBins : (numBins 8).toNat = 256 := by decide

theorem binOf_eq (x : UInt32) {pass : ℕ} (hp : pass < 4) :
    binOf 8 pass x = x.toNat / 256 ^ pass % 256 := by
  have hmask : (numBins 8 - 1).toNat = 2 ^ 8 - 1 := by decide
  have hshift : (UInt32.ofNat (pass * 8)).toNat % 32 = 8 * pass := by
    rw [UInt32.toNat_ofNat']
    omega
  rw [binOf, UInt32.toNat_and, hmask, Nat.and_two_pow_sub_one_eq_mod, UInt32.toNat_shiftRight,
    hshift, Nat.shiftRight_eq_div_pow, Nat.pow_mul]

theorem binOf_lt (x : UInt32) {pass : ℕ} (hp : pass < 4) : binOf 8 pass x < 256 := by
  rw [binOf_eq x hp]
  omega

section
variable {pass offset : ℕ} (ho : offset < size)

/-- The key of a record. -/
def key (r : Record size) : UInt32 := r[offset]

/-- The digit of its key. -/
def digit (pass : ℕ) (r : Record size) : ℕ := binOf 8 pass (key ho r)

/-- The first loop on a record. -/
def countRecord (pass : ℕ) (count : Words) (r : Record size) : Option Words := do
  let c ← count[digit ho pass r]?
  some (count.set (digit ho pass r) (c + 1))

/-- The third loop on a record. -/
def putRecord (pass : ℕ) (s : Words × Words) (r : Record size) : Option (Words × Words) := do
  let c ← s.1[digit ho pass r]?
  let out ← s.2.write (c.toNat * size) r.toList
  some (s.1.set (digit ho pass r) (c + 1), out)

theorem countBin_words {rs : List (Record size)} {i : ℕ} (hi : i < rs.length) (count : Words) :
    countBin 8 pass offset size (words rs) count i = countRecord ho pass count rs[i] := by
  rw [countBin, getElem?_words hi ho]
  rfl

theorem placeRecord_words {rs : List (Record size)} {i : ℕ} (hi : i < rs.length)
    (s : Words × Words) :
    placeRecord 8 pass offset size (words rs) s i = putRecord ho pass s rs[i] := by
  rw [placeRecord, getElem?_words hi ho, read_words hi]
  rfl

theorem countRecord_counters (hp : pass < 4) (c : ℕ → ℕ) (r : Record size) :
    countRecord ho pass (counters 256 c) r = some (counters 256
      (Function.update c (digit ho pass r) (c (digit ho pass r) + 1))) := by
  have hb : digit ho pass r < 256 := binOf_lt _ hp
  rw [countRecord, getElem?_counters hb, ← set_counters, UInt32.ofNat_add]
  rfl

/-- The first loop counts the records of each bin. -/
theorem foldlM_countBin (hp : pass < 4) (rs : List (Record size)) :
    (List.range rs.length).foldlM (countBin 8 pass offset size (words rs))
        (counters 256 fun _ => 0) =
      some (counters 256 fun b => rs.countP (digit ho pass · = b)) := by
  rw [foldlM_range fun count i hi => countBin_words ho hi count]
  induction rs using List.reverseRecOn with
  | nil => rfl
  | append_singleton rs r ih =>
    rw [List.foldlM_append, ih, Option.bind_eq_bind, Option.bind_some, List.foldlM_cons,
      countRecord_counters ho hp, Option.bind_eq_bind, Option.bind_some, List.foldlM_nil]
    congr 2
    funext b
    by_cases hb : b = digit ho pass r
    · subst hb
      simp
    · simp [Function.update_of_ne hb, Ne.symm hb]

/-- The second loop leaves the places where the bins start. -/
theorem foldlM_startBin (c : ℕ → ℕ) {n : ℕ} (hn : n ≤ 256) :
    (List.range n).foldlM startBin (counters 256 c, 0) =
      some (counters 256 fun b => if b < n then ((List.range b).map c).sum else c b,
        UInt32.ofNat ((List.range n).map c).sum) := by
  induction n with
  | zero => simp
  | succ n ih =>
    rw [List.range_succ, List.foldlM_append, ih (by omega), Option.bind_eq_bind, Option.bind_some,
      List.foldlM_cons, startBin, getElem?_counters (by omega), if_neg (lt_irrefl n)]
    simp only [Option.bind_eq_bind, Option.bind_some, List.foldlM_nil, Option.pure_def,
      set_counters, List.map_append, List.sum_append, List.map_singleton, List.sum_singleton,
      UInt32.ofNat_add]
    congr 3
    funext b
    rcases Nat.lt_trichotomy b n with hb | rfl | hb
    · rw [Function.update_of_ne (by omega), if_pos hb, if_pos (by omega)]
    · rw [Function.update_self, if_pos (by omega)]
    · rw [Function.update_of_ne (by omega), if_neg (by omega), if_neg (by omega)]

/-- The third loop puts the records in the order of the bins. -/
theorem foldlM_putRecord (hp : pass < 4) {done rest out : List (Record size)} {next : ℕ → ℕ}
    (hf : Filling (digit ho pass) 256 done rest next out) (hnum : out.length < 2 ^ 32) :
    ∃ next', rest.foldlM (putRecord ho pass) (counters 256 next, words out) =
      some (counters 256 next', words (bucketed (digit ho pass) 256 (done ++ rest))) := by
  induction rest generalizing done next out with
  | nil =>
    rw [List.append_nil, ← hf.eq_bucketed]
    exact ⟨next, rfl⟩
  | cons r rest ih =>
    have hb : digit ho pass r < 256 := binOf_lt _ hp
    obtain ⟨hlt, hf'⟩ := hf.step hb
    have hnext : (UInt32.ofNat (next (digit ho pass r))).toNat = next (digit ho pass r) :=
      UInt32.toNat_ofNat_of_lt (by simp only [UInt32.size]; omega)
    have hstep : putRecord ho pass (counters 256 next, words out) r = some
        (counters 256 (Function.update next (digit ho pass r) (next (digit ho pass r) + 1)),
          words (out.set (next (digit ho pass r)) r)) := by
      rw [putRecord, getElem?_counters hb, Option.bind_eq_bind, Option.bind_some, hnext,
        write_words hlt, ← set_counters, UInt32.ofNat_add]
      rfl
    rw [List.foldlM_cons, hstep, List.append_cons]
    exact ih hf' (by simpa using hnum)

/-- The loops of a pass, one after the other. -/
theorem kernel_of_loops {shift num N : ℕ} {count out inp cleared counted : Words}
    {placed : Words × UInt32} (hN : (numBins shift).toNat = N)
    (hclear : count.write 0 (List.replicate N 0) = some cleared)
    (hcount : (List.range num).foldlM (countBin shift pass offset size inp) cleared = some counted)
    (hplace : (List.range N).foldlM startBin (counted, 0) = some placed) :
    kernel shift pass offset size count out inp num =
      (List.range num).foldlM (placeRecord shift pass offset size inp) (placed.1, out) := by
  subst hN
  simp only [kernel, hclear, hcount, hplace, Option.bind_eq_bind, Option.bind_some]

/-- **A pass orders the records by the digit.** -/
theorem kernel_eq (hp : pass < 4) {rs : List (Record size)} (hnum : rs.length < 2 ^ 32)
    {count out : Words} (hcount : count.length = 256) (hout : out.length = rs.length * size) :
    ∃ count' : Words, count'.length = 256 ∧
      kernel 8 pass offset size count out (words rs) rs.length =
        some (count', words (bucketed (digit ho pass) 256 rs)) := by
  obtain ⟨junk, hjunk, rfl⟩ := exists_records hout
  have hbin : ∀ r ∈ rs, digit ho pass r < 256 := fun r _ => binOf_lt _ hp
  obtain ⟨next, hnext⟩ := foldlM_putRecord ho hp (Filling.init hbin hjunk) (by omega)
  rw [List.nil_append] at hnext
  have hstarts : (counters 256 fun b => if b < 256 then
      ((List.range b).map fun b => rs.countP (digit ho pass · = b)).sum
      else rs.countP (digit ho pass · = b)) = counters 256 (starts (digit ho pass) rs) := by
    refine List.map_congr_left fun b hb => ?_
    dsimp only
    rw [if_pos (List.mem_range.mp hb), starts]
  refine ⟨counters 256 next, length_counters _ _, ?_⟩
  rw [kernel_of_loops toNat_numBins (clear_counters hcount) (foldlM_countBin ho hp rs)
    (foldlM_startBin _ le_rfl), hstarts, foldlM_range fun s i hi => placeRecord_words ho hi s]
  exact hnext

/-! ## The passes -/

/-- The records after `n` passes. -/
def passes (rs : List (Record size)) : ℕ → List (Record size)
  | 0 => rs
  | n + 1 => bucketed (digit ho n) 256 (passes rs n)

variable {n : ℕ} (rs : List (Record size))

theorem passes_perm (hn : n ≤ 4) : (passes ho rs n).Perm rs := by
  induction n with
  | zero => exact List.Perm.refl rs
  | succ n ih => exact (bucketed_perm fun r _ => binOf_lt _ (by omega)).trans (ih (by omega))

theorem filter_passes (hn : n ≤ 4) (k : UInt32) :
    (passes ho rs n).filter (key ho · = k) = rs.filter (key ho · = k) := by
  induction n with
  | zero => rfl
  | succ n ih =>
    rw [passes, filter_bucketed (b := binOf 8 n k) (binOf_lt _ (by omega)) ?_, ih (by omega)]
    intro r _ hr
    rw [digit, of_decide_eq_true hr]

/-- A digit more: the higher digit decides, then the lower ones. -/
theorem mod_pow_succ_le {x y p : ℕ} (h : x / 256 ^ p % 256 < y / 256 ^ p % 256 ∨
    x / 256 ^ p % 256 = y / 256 ^ p % 256 ∧ x % 256 ^ p ≤ y % 256 ^ p) :
    x % 256 ^ (p + 1) ≤ y % 256 ^ (p + 1) := by
  rw [Nat.mod_pow_succ, Nat.mod_pow_succ]
  rcases h with hlt | ⟨heq, hle⟩
  · have hx : x % 256 ^ p < 256 ^ p := Nat.mod_lt _ (by positivity)
    have hmul := Nat.mul_le_mul_left (256 ^ p) (Nat.succ_le_of_lt hlt)
    rw [Nat.mul_succ] at hmul
    omega
  · rw [heq]
    omega

/-- After `n` passes, the records are ordered by the last `n` digits. -/
theorem passes_pairwise (hn : n ≤ 4) : (passes ho rs n).Pairwise fun r r' =>
    (key ho r).toNat % 256 ^ n ≤ (key ho r').toNat % 256 ^ n := by
  induction n with
  | zero => simp [Nat.mod_one, List.pairwise_iff_getElem]
  | succ n ih =>
    refine (pairwise_bucketed (ih (by omega))).imp fun {r r'} h => mod_pow_succ_le ?_
    rwa [digit, digit, binOf_eq _ (by omega), binOf_eq _ (by omega)] at h

theorem radixSort32_eq (hnum : rs.length < 2 ^ 32) {count out : Words}
    (hcount : count.length = 256) (hout : out.length = rs.length * size) :
    ∃ count' out' : Words, radixSort32 8 2 offset size count out (words rs) rs.length =
      some (count', out', words (passes ho rs 4)) := by
  have hlen : ∀ n ≤ 4, (passes ho rs n).length = rs.length :=
    fun n hn => (passes_perm ho rs hn).length_eq
  have hwords : ∀ n ≤ 4, (words (passes ho rs n)).length = rs.length * size :=
    fun n hn => by rw [length_words, hlen n hn]
  -- each pass writes over what the pass before it has read
  have hpass : ∀ n < 4, ∀ count out : Words, count.length = 256 → out.length = rs.length * size →
      ∃ count' : Words, count'.length = 256 ∧
        kernel 8 n offset size count out (words (passes ho rs n)) rs.length =
          some (count', words (passes ho rs (n + 1))) := by
    intro n hn count out hcount hout
    have hnum' : (passes ho rs n).length < 2 ^ 32 := by rw [hlen n hn.le]; exact hnum
    have hout' : out.length = (passes ho rs n).length * size := by rw [hlen n hn.le]; exact hout
    have h := kernel_eq ho hn hnum' hcount hout'
    rwa [hlen n hn.le] at h
  obtain ⟨count₁, hc₁, h₁⟩ := hpass 0 (by omega) count out hcount hout
  obtain ⟨count₂, hc₂, h₂⟩ := hpass 1 (by omega) count₁ _ hc₁ (hwords 0 (by omega))
  obtain ⟨count₃, hc₃, h₃⟩ := hpass 2 (by omega) count₂ _ hc₂ (hwords 1 (by omega))
  obtain ⟨count₄, -, h₄⟩ := hpass 3 (by omega) count₃ _ hc₃ (hwords 2 (by omega))
  refine ⟨count₄, words (passes ho rs 3), ?_⟩
  change kernel 8 0 offset size count out (words rs) rs.length = _ at h₁
  change kernel 8 1 offset size count₁ (words rs) _ rs.length = _ at h₂
  rw [radixSort32, show List.range 2 = [0, 1] from rfl]
  simp only [List.foldlM_cons, List.foldlM_nil, Option.bind_eq_bind, Option.pure_def,
    show (0 : ℕ) <<< 1 = 0 from rfl, show (1 : ℕ) <<< 1 = 2 from rfl,
    show (0 : ℕ) ||| 1 = 1 from rfl, show (2 : ℕ) ||| 1 = 3 from rfl,
    h₁, h₂, h₃, h₄, Option.bind_some]

/-- The buffer has room for the scratch and the counters. -/
theorem le_length_getRadixSortBuf (uninit : ℕ → UInt32) (buffer : Words) (n : ℕ) :
    n ≤ (getRadixSortBuf uninit buffer n).length := by
  rw [getRadixSortBuf]
  split
  · simp
  · omega

/-- `radixSort` runs the four passes. -/
theorem radixSort_eq_passes (hnum : rs.length < 2 ^ 32) (uninit : ℕ → UInt32) (buffer : Words) :
    ∃ buffer', radixSort 8 4 (offset * 4) (size * 4) uninit buffer (words rs) rs.length =
      some (words (passes ho rs 4), buffer') := by
  have hbuf := le_length_getRadixSortBuf uninit buffer (radixSort32Size 8 size rs.length)
  set buf := getRadixSortBuf uninit buffer (radixSort32Size 8 size rs.length) with hbufdef
  have hneeded : radixSort32Size 8 size rs.length = rs.length * size + 256 := by
    rw [radixSort32Size, toNat_numBins]
  have hcount : ((buf.take (radixSort32Size 8 size rs.length)).drop
      (rs.length * size)).length = 256 := by
    simp
    omega
  have hout : (buf.take (rs.length * size)).length = rs.length * size := by
    simp
    omega
  obtain ⟨count', out', hsort⟩ := radixSort32_eq ho rs hnum hcount hout
  refine ⟨out' ++ count' ++ buf.drop (radixSort32Size 8 size rs.length), ?_⟩
  rw [radixSort, Nat.mul_div_cancel _ (by omega), Nat.mul_div_cancel _ (by omega)]
  simp only [← hbufdef, hsort, Option.bind_eq_bind, Option.bind_some]

/-- The records are then ordered by the whole key. -/
theorem passes_sorted : (passes ho rs 4).Pairwise fun r r' => r[offset] ≤ r'[offset] := by
  refine (passes_pairwise ho rs le_rfl).imp fun {r r'} h => ?_
  rw [show 256 ^ 4 = 2 ^ 32 from rfl, Nat.mod_eq_of_lt (UInt32.toNat_lt _),
    Nat.mod_eq_of_lt (UInt32.toNat_lt _)] at h
  exact UInt32.le_iff_toNat_le.mpr h

end

/-- **`radixSort` is a stable sort**: it ends without an access outside of its
    arrays, and leaves the records in the order of their keys, those of one key in
    the order they had. -/
theorem radixSort_stable {size offset : ℕ} (ho : offset < size) (rs : List (Record size))
    (hnum : rs.length < 2 ^ 32) (uninit : ℕ → UInt32) (buffer : Words) :
    ∃ sorted buffer', radixSort 8 4 (offset * 4) (size * 4) uninit buffer (words rs) rs.length =
        some (words sorted, buffer') ∧
      sorted.Perm rs ∧ sorted.Pairwise (fun r r' => r[offset] ≤ r'[offset]) ∧
      ∀ k : UInt32, sorted.filter (·[offset] = k) = rs.filter (·[offset] = k) := by
  obtain ⟨buffer', hsort⟩ := radixSort_eq_passes ho rs hnum uninit buffer
  exact ⟨passes ho rs 4, buffer', hsort, passes_perm ho rs le_rfl, passes_sorted ho rs,
    filter_passes ho rs le_rfl⟩

/-- Records of the keys 7, 3, 7 and 3. -/
theorem radixSort_stable_four :
    let rs : List (Record 2) := [#v[7, 1], #v[3, 2], #v[7, 3], #v[3, 4]]
    ∃ sorted buffer', radixSort 8 4 (0 * 4) (2 * 4) (fun _ => 0) [] (words rs) rs.length =
        some (words sorted, buffer') ∧
      sorted.Perm rs ∧ sorted.Pairwise (fun r r' => r[0] ≤ r'[0]) ∧
      ∀ k : UInt32, sorted.filter (·[0] = k) = rs.filter (·[0] = k) := by
  intro rs
  exact radixSort_stable (by decide) rs (by decide) _ _

end RadixSort

end Mdd2
