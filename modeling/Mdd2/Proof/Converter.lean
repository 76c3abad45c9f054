/-
  The model converter keeps the meaning of the decision trees.

  A test for NaN becomes a comparison, since what compares with NaN is false: a
  negated `>` lets NaN through, and so does a negated `<= INFINITY` nothing else.

  * `holds_cond`: each kind of test keeps its meaning;
  * `foldl_running`: the lines of a tree return the leaf of the tree;
  * `convert_preserves`: the C++ of a tree returns what LightGBM's code returns;
  * `call_procfile`: so does each function of a file of trees.
-/
import Mdd2.ConvertModel

namespace Mdd2

namespace ConvertModel

open Ieee

variable {f : Format}

/-! ## Constants -/

/-- **A constant is printed as itself**, and the infinities by their names. -/
theorem value_literal {c : Number f} (hc : c.isNaN = false) : (literal c).value = c := by
  rw [literal]
  split_ifs with hinf hneg hnan
  · rw [Number.eq_inf_of_isInf hinf, Number.lt_zero_inf] at hneg
    rw [Literal.value, ← hneg, ← Number.eq_inf_of_isInf hinf]
  · rw [Number.eq_inf_of_isInf hinf, Number.lt_zero_inf, Bool.not_eq_true] at hneg
    rw [Literal.value, ← hneg, ← Number.eq_inf_of_isInf hinf]
  · rw [hc] at hnan
    cases hnan
  · rfl

/-! ## Tests -/

/-- A test after `reimprove`. -/
def Test.reimproved (x : ℤ) : Test f → Line f
  | .n0cmple c =>
    if c.val.lt (.zero f) then ⟨.ifcmple, x, c.val, 0⟩ else ⟨.ifcmpgt, x, c.val, 1⟩
  | .notnan => ⟨.ifcmple, x, .inf f false, 0⟩
  | .nan => ⟨.ifcmple, x, .inf f false, 1⟩
  | .nanorcmple c => ⟨.ifcmpgt, x, c.val, 1⟩
  | .notnanandcmple c => ⟨.ifcmple, x, c.val, 0⟩

theorem reimproveLine_line (test : Test f) (x : ℕ) :
    reimproveLine (test.line x) = some (test.reimproved x) := by
  cases test with
  | n0cmple c =>
    have hline : reimproveLine (Test.line x (.n0cmple c)) =
        if c.val.lt (.zero f) then some ⟨.ifcmple, x, c.val, 0⟩
        else if c.val.ge (.zero f) then some ⟨.ifcmpgt, x, c.val, 1⟩ else none := rfl
    rw [hline, Test.reimproved]
    split_ifs with hlt hge
    · rfl
    · rfl
    · exact absurd (Number.ge_zero_of_not_lt c.isNaN_val (Bool.not_eq_true _ ▸ hlt)) hge
  | _ => rfl

/-- The comparison that a test becomes, and whether it is negated. -/
def Test.cond (x : ℤ) : Test f → Bool × Cond f
  | .n0cmple c =>
    if c.val.lt (.zero f) then (false, .le x (literal c.val)) else (true, .gt x (literal c.val))
  | .notnan => (false, .le x (literal (.inf f false)))
  | .nan => (true, .le x (literal (.inf f false)))
  | .nanorcmple c => (true, .gt x (literal c.val))
  | .notnanandcmple c => (false, .le x (literal c.val))

theorem cppLine_reimproved (test : Test f) (x : ℤ) :
    cppLine (test.reimproved x) = .ifOpen (test.cond x).1 (test.cond x).2 := by
  cases test with
  | n0cmple c =>
    simp only [Test.reimproved, Test.cond]
    split_ifs <;> rfl
  | _ => rfl

/-- **A test keeps its meaning**, at the feature that it is moved to. -/
theorem holds_cond (test : Test f) (x : ℤ) (a : ℤ → Number f) :
    (if (test.cond x).1 then !(test.cond x).2.holds a else (test.cond x).2.holds a) =
      test.holds (a x) := by
  cases test with
  | n0cmple c =>
    rw [Test.holds, Number.le_replaceNaN _ c.isNaN_val, Test.cond]
    by_cases hlt : c.val.lt (.zero f) = true
    · rw [if_pos hlt, if_pos hlt]
      show (a x).le (literal _).value = (a x).le c.val
      rw [value_literal c.isNaN_val]
    · rw [if_neg hlt, if_neg hlt]
      show (!(a x).gt (literal _).value) = !(a x).gt c.val
      rw [value_literal c.isNaN_val]
  | notnan =>
    show (a x).le (literal _).value = !(a x).isNaN
    rw [value_literal (Number.isNaN_inf false), Number.le_inf]
  | nan =>
    show (!(a x).le (literal _).value) = (a x).isNaN
    rw [value_literal (Number.isNaN_inf false), Number.le_inf, Bool.not_not]
  | nanorcmple c =>
    show (!(a x).gt (literal _).value) = ((a x).isNaN || (a x).le c.val)
    rw [value_literal c.isNaN_val, Number.not_gt _ c.isNaN_val]
  | notnanandcmple c =>
    show (a x).le (literal _).value = (!(a x).isNaN && (a x).le c.val)
    rw [value_literal c.isNaN_val, Number.not_isNaN_and_le]

/-! ## Trees -/

/-- The lines of a tree after `revamp`. -/
def Tree.lines (mapping : ℤ → ℤ) : Tree f → List (Line f)
  | .leaf c => [⟨.return_, -1, c.val, -1⟩]
  | .node test x left right =>
    test.reimproved (mapping x) :: (left.lines mapping ++
      ⟨.else_, -1, .nan f, -1⟩ :: (right.lines mapping ++ [⟨.endif, -1, .nan f, -1⟩]))

theorem reimprove_improve (tree : Tree f) :
    reimprove (improve tree) = some (tree.lines id) := by
  induction tree with
  | leaf c => rfl
  | node test x left right ihl ihr =>
    rw [reimprove] at ihl ihr ⊢
    simp only [improve, Tree.lines, List.mapM_cons, List.mapM_append, ihl, ihr,
      reimproveLine_line]
    rfl

theorem revampLine_reimproved {mapping : ℤ → Option ℤ} (test : Test f) {x : ℕ} {j : ℤ}
    (hj : mapping x = some j) :
    revampLine mapping (test.reimproved x) = some (test.reimproved j) := by
  have hx : (test.reimproved (x : ℤ)).x = x := by
    cases test with
    | n0cmple c => rw [Test.reimproved]; split_ifs <;> rfl
    | _ => rfl
  rw [revampLine, hx, if_pos (by omega), hj]
  cases test with
  | n0cmple c => simp only [Test.reimproved]; split_ifs <;> rfl
  | _ => rfl

theorem revamp_lines {mapping : ℤ → Option ℤ} {tree : Tree f}
    (h : ∀ x ∈ tree.features, (mapping x).isSome) :
    revamp mapping (tree.lines id) = some (tree.lines fun x => (mapping x).getD 0) := by
  induction tree with
  | leaf c => rfl
  | node test x left right ihl ihr =>
    simp only [Tree.features, List.forall_mem_cons, List.forall_mem_append] at h
    obtain ⟨hx, hl, hr⟩ := h
    obtain ⟨j, hj⟩ := Option.isSome_iff_exists.1 hx
    have ihl := ihl hl
    have ihr := ihr hr
    rw [revamp] at ihl ihr ⊢
    simp only [Tree.lines, List.mapM_cons, List.mapM_append, ihl, ihr, id_eq,
      revampLine_reimproved test hj, hj, Option.getD_some]
    rfl

theorem convert_eq {mapping : ℤ → Option ℤ} {tree : Tree f}
    (h : ∀ x ∈ tree.features, (mapping x).isSome) :
    convert mapping tree = some (tree.lines fun x => (mapping x).getD 0) := by
  rw [convert, reimprove_improve]
  exact revamp_lines h

/-! ## Control -/

/-- Control after some lines. -/
def Control.after (a : ℤ → Number f) (control : Control f) (code : List (Line f)) : Control f :=
  code.foldl (fun control l => control.next a (cppLine l)) control

section
variable {a : ℤ → Number f} {mapping : ℤ → ℤ}

theorem after_append (control : Control f) (l l' : List (Line f)) :
    control.after a (l ++ l') = (control.after a l).after a l' := List.foldl_append

theorem after_cons (control : Control f) (l : Line f) (code : List (Line f)) :
    control.after a (l :: code) = (control.next a (cppLine l)).after a code := rfl

theorem foldl_returned (c : Number f) (code : List (Cpp f)) :
    code.foldl (Control.next a) (.returned c) = .returned c := by
  induction code with
  | nil => rfl
  | cons l code ih => exact ih

theorem after_returned (c : Number f) (code : List (Line f)) :
    (Control.returned c).after a code = .returned c := by
  rw [Control.after, ← List.foldl_map, foldl_returned]

/-- A test is the opening of a block. -/
theorem next_reimproved (control : Control f) (test : Test f) (x : ℤ) :
    control.next a (cppLine (test.reimproved x)) =
      control.next a (.ifOpen (test.cond x).1 (test.cond x).2) := by
  rw [cppLine_reimproved]

theorem next_skipping_ifOpen (depth : ℕ) (negated : Bool) (cond : Cond f) :
    (Control.skipping depth).next a (.ifOpen negated cond) = .skipping (depth + 1) := by
  cases depth <;> rfl

/-- A tree is skipped as a whole. -/
theorem after_skipping (tree : Tree f) (depth : ℕ) :
    (Control.skipping depth).after a (tree.lines mapping) = .skipping depth := by
  induction tree generalizing depth with
  | leaf c => cases depth <;> rfl
  | node test x left right ihl ihr =>
    rw [Tree.lines, after_cons, next_reimproved, next_skipping_ifOpen, after_append, ihl,
      after_cons]
    show ((Control.skipping (depth + 1)).after a _) = _
    rw [after_append, ihr]
    rfl

/-- **A tree returns its leaf.** -/
theorem after_running (tree : Tree f) {arr : ℤ → Number f}
    (h : ∀ x ∈ tree.features, a (mapping x) = arr x) :
    Control.running.after a (tree.lines mapping) = .returned (tree.eval arr) := by
  induction tree with
  | leaf c =>
    show Control.returned (literal c.val).value = _
    rw [value_literal c.isNaN_val, Tree.eval]
  | node test x left right ihl ihr =>
    simp only [Tree.features, List.forall_mem_cons, List.forall_mem_append] at h
    obtain ⟨hx, hl, hr⟩ := h
    rw [Tree.lines, after_cons, next_reimproved, Control.next, holds_cond, hx, Tree.eval,
      after_append]
    split_ifs with htest
    · rw [ihl hl, after_returned]
    · rw [after_skipping, after_cons]
      show Control.running.after a _ = _
      rw [after_append, ihr hr, after_returned]

/-- Nothing after a tree matters. -/
theorem result_lines (tree : Tree f) {arr : ℤ → Number f}
    (h : ∀ x ∈ tree.features, a (mapping x) = arr x) (rest : List (Cpp f)) :
    (((tree.lines mapping).map cppLine ++ rest).foldl (Control.next a) .running).result =
      some (tree.eval arr) := by
  have hafter := after_running tree h
  rw [Control.after, ← List.foldl_map] at hafter
  rw [List.foldl_append, hafter, foldl_returned]
  rfl

end

/-! ## Files -/

theorem cpp_foldl_finishLine (e : Emitter f) (code : List (Line f)) :
    (code.foldl finishLine e).res.map Emitted.cpp =
      e.res.map Emitted.cpp ++ code.map cppLine := by
  induction code generalizing e with
  | nil => exact (List.append_nil _).symm
  | cons l code ih =>
    rw [List.foldl_cons, ih, finishLine, List.map_append, List.map_cons, List.append_assoc]
    rfl

/-- What `finish` writes, but for the indentation. -/
theorem cpp_finish (code : List (Line f)) : ∃ trees, (finish code).map Emitted.cpp =
    .includeMath :: (code.map cppLine ++ [.total trees]) := by
  refine ⟨(code.foldl finishLine { res := [⟨0, .includeMath⟩] }).trees.reverse, ?_⟩
  rw [finish, List.map_append, cpp_foldl_finishLine]
  rfl

theorem run_eq (a : ℤ → Number f) (lines : List (Emitted f)) :
    run a lines = ((lines.map Emitted.cpp).foldl (Control.next a) .running).result := by
  rw [run, List.foldl_map]

/-- What the function of a tree reads. -/
theorem moved_features {tree : Tree f} {mapping : ℤ → Option ℤ} {a a' : ℤ → Number f}
    (hmapping : ∀ x ∈ tree.features, (mapping x).isSome)
    (hmoved : ∀ i j, mapping i = some j → a' j = a i) :
    ∀ x ∈ tree.features, a' ((mapping x).getD 0) = a x := by
  intro x hx
  obtain ⟨j, hj⟩ := Option.isSome_iff_exists.1 (hmapping x hx)
  rw [hj, Option.getD_some, hmoved x j hj]

/-- **The C++ of a tree returns what the code of LightGBM returns**, on a vector
    where each feature is at the place that it is moved to. -/
theorem convert_preserves (tree : Tree f) {mapping : ℤ → Option ℤ}
    (hmapping : ∀ x ∈ tree.features, (mapping x).isSome) :
    ∃ code, convert mapping tree = some code ∧ ∀ a a' : ℤ → Number f,
      (∀ i j, mapping i = some j → a' j = a i) → run a' (finish code) = some (tree.eval a) := by
  refine ⟨_, convert_eq hmapping, fun a a' hmoved => ?_⟩
  obtain ⟨trees, hcpp⟩ := cpp_finish (tree.lines fun x => (mapping x).getD 0)
  rw [run_eq, hcpp, List.foldl_cons]
  exact result_lines tree (moved_features hmapping hmoved) [.total trees]

/-- A missing value goes to the left of a threshold that is not negative. -/
theorem convert_preserves_nan :
    let tree : Tree binary64 := .node (.n0cmple ⟨.zero _, Number.isNaN_zero _⟩) 0
      (.leaf ⟨.zero _, Number.isNaN_zero _⟩) (.leaf ⟨.inf _ true, Number.isNaN_inf true⟩)
    ∃ code, convert (fun _ => some 7) tree = some code ∧
      run (fun _ => .nan _) (finish code) = some (.zero _) := by
  intro tree
  have hmapping : ∀ x ∈ tree.features, ((fun _ => some 7 : ℤ → Option ℤ) x).isSome :=
    fun _ _ => rfl
  obtain ⟨code, hcode, hrun⟩ := convert_preserves tree hmapping
  have hleft : (Test.n0cmple ⟨.zero binary64, Number.isNaN_zero _⟩).holds (.nan _) = true := by
    rw [Test.holds, Number.replaceNaN, if_pos (Number.isNaN_nan _),
      Number.le_self (Number.isNaN_zero _)]
  refine ⟨code, hcode, (hrun (fun _ => .nan _) _ fun _ _ _ => rfl).trans ?_⟩
  rw [Tree.eval, if_pos hleft, Tree.eval]

/-! ## Files of trees -/

section
variable {mapping : ℤ → ℤ} {x : ℤ}

theorem isFunction_lines (tree : Tree f) :
    ∀ l ∈ tree.lines mapping, (cppLine l).isFunction x = false := by
  induction tree with
  | leaf c =>
    intro l hl
    rw [List.mem_singleton.1 hl]
    rfl
  | node test y left right ihl ihr =>
    simp only [Tree.lines, List.forall_mem_cons, List.forall_mem_append]
    refine ⟨?_, ihl, rfl, ihr, rfl, fun l hl => absurd hl List.not_mem_nil⟩
    rw [cppLine_reimproved]
    rfl

/-- The lines of the function of a tree. -/
def procLines (mapping : ℤ → ℤ) (v : ℤ × Tree f) : List (Line f) :=
  ⟨.defproc, v.1, .nan f, -1⟩ :: (v.2.lines mapping ++ [⟨.endproc, -1, .nan f, -1⟩])

/-- **The function of a tree is found** in the lines of all of them. -/
theorem dropWhile_procLines (mapping : ℤ → ℤ) {visited : List (ℤ × Tree f)}
    (hnodup : (visited.map Prod.fst).Nodup) {v : ℤ × Tree f} (hv : v ∈ visited) : ∃ rest,
    ((visited.flatMap (procLines mapping)).dropWhile fun l => !(cppLine l).isFunction v.1) =
      procLines mapping v ++ rest := by
  induction visited with
  | nil => exact absurd hv List.not_mem_nil
  | cons u visited ih =>
    rw [List.map_cons, List.nodup_cons] at hnodup
    rw [List.flatMap_cons]
    rcases List.mem_cons.1 hv with rfl | hv'
    · refine ⟨visited.flatMap (procLines mapping), ?_⟩
      rw [procLines, List.cons_append, List.dropWhile_cons_of_neg]
      simp [cppLine, Cpp.isFunction]
    · have hne : u.1 ≠ v.1 := fun he => hnodup.1 (he ▸ List.mem_map_of_mem hv')
      have hskip : ∀ l ∈ procLines mapping u, (!(cppLine l).isFunction v.1) = true := by
        simp only [procLines, List.forall_mem_cons, List.forall_mem_append]
        refine ⟨?_, fun l hl => by rw [isFunction_lines u.2 l hl, Bool.not_false], rfl,
          fun l hl => absurd hl List.not_mem_nil⟩
        simp [cppLine, Cpp.isFunction, hne]
      obtain ⟨rest, hrest⟩ := ih hnodup.2 hv'
      exact ⟨rest, by rw [List.dropWhile_append_of_pos hskip, hrest]⟩

end

theorem mapM_proc {mapping : ℤ → Option ℤ} {visited : List (ℤ × Tree f)}
    (h : ∀ v ∈ visited, ∀ x ∈ v.2.features, (mapping x).isSome) :
    (visited.mapM fun v => proc mapping v.1 v.2) =
      some (visited.map (procLines fun x => (mapping x).getD 0)) := by
  induction visited with
  | nil => rfl
  | cons v visited ih =>
    obtain ⟨hv, hrest⟩ := List.forall_mem_cons.1 h
    rw [List.mapM_cons, ih hrest, proc, convert_eq hv]
    rfl

theorem call_eq (x : ℤ) (a : ℤ → Number f) (file : List (Emitted f)) : call x a file =
    ((((file.map Emitted.cpp).dropWhile fun c => !c.isFunction x).drop 1).foldl
      (Control.next a) .running).result := by
  rw [call, run_eq, List.map_drop, List.dropWhile_map]
  rfl

/-- **Each function of a file returns what the code of its tree returns.** -/
theorem call_procfile {mapping : ℤ → Option ℤ} {visited : List (ℤ × Tree f)}
    (hnodup : (visited.map Prod.fst).Nodup)
    (hmapping : ∀ v ∈ visited, ∀ x ∈ v.2.features, (mapping x).isSome) :
    ∃ file, procfile mapping visited = some file ∧ ∀ v ∈ visited, ∀ a a' : ℤ → Number f,
      (∀ i j, mapping i = some j → a' j = a i) → call v.1 a' file = some (v.2.eval a) := by
  set m : ℤ → ℤ := fun x => (mapping x).getD 0
  have hfile : procfile mapping visited = some (finish (visited.flatMap (procLines m))) := by
    rw [procfile, mapM_proc hmapping, List.flatMap_def]
    rfl
  refine ⟨_, hfile, fun v hv a a' hmoved => ?_⟩
  obtain ⟨trees, hcpp⟩ := cpp_finish (visited.flatMap (procLines m))
  obtain ⟨rest, hrest⟩ := dropWhile_procLines m hnodup hv
  have hfound : (((finish (visited.flatMap (procLines m))).map Emitted.cpp).dropWhile
      fun c => !c.isFunction v.1) = (procLines m v ++ rest).map cppLine ++ [.total trees] := by
    have hdrop : ((visited.flatMap (procLines m)).map cppLine).dropWhile
        (fun c => !c.isFunction v.1) = (procLines m v ++ rest).map cppLine := by
      rw [List.dropWhile_map, ← hrest]
      rfl
    rw [hcpp, List.dropWhile_cons_of_pos rfl, List.dropWhile_append, hdrop, if_neg]
    simp [procLines]
  rw [call_eq, hfound, procLines, List.cons_append, List.map_cons, List.cons_append,
    List.drop_one, List.tail_cons, List.append_assoc, List.map_append, List.append_assoc]
  exact result_lines v.2 (moved_features (hmapping v hv) hmoved) _

end ConvertModel

end Mdd2
