/-
  The model converter (`scripts/convert_model.py`).

  LightGBM writes each decision tree as C++.  `improve` turns that into lines of an
  operation, a feature, a threshold and a flag; `reimprove` turns the tests for NaN
  into comparisons; `revamp` renumbers the features; and `finish` writes C++ again.
  A number stands for the text that it is printed as.
-/
import Mdd2.Lib.Ieee

namespace Mdd2

namespace ConvertModel

open Ieee

variable {f : Format}

/-! ## LightGBM -/

/-- A number that LightGBM prints: any but NaN. -/
structure Constant (f : Format) where
  val : Number f
  isNaN_val : val.isNaN = false

/-- The tests of LightGBM, on `fval = arr[x]`. -/
inductive Test (f : Format) where
  /-- `if (std::isnan(fval)) fval = 0.0; if (fval <= c)` -/
  | n0cmple (c : Constant f)
  /-- `if (!std::isnan(fval))` -/
  | notnan
  /-- `if (std::isnan(fval))` -/
  | nan
  /-- `if (std::isnan(fval) || fval <= c)` -/
  | nanorcmple (c : Constant f)
  /-- `if (!std::isnan(fval) && fval <= c)` -/
  | notnanandcmple (c : Constant f)

inductive Tree (f : Format) where
  /-- `return c;` -/
  | leaf (c : Constant f)
  /-- `if (..) { .. } else { .. }` -/
  | node (test : Test f) (x : ℕ) (left right : Tree f)

def Test.holds (fval : Number f) : Test f → Bool
  | .n0cmple c => fval.replaceNaN.le c.val
  | .notnan => !fval.isNaN
  | .nan => fval.isNaN
  | .nanorcmple c => fval.isNaN || fval.le c.val
  | .notnanandcmple c => !fval.isNaN && fval.le c.val

namespace Tree

/-- The value returned by the code of LightGBM. -/
def eval (arr : ℤ → Number f) : Tree f → Number f
  | .leaf c => c.val
  | .node test x left right => if test.holds (arr x) then left.eval arr else right.eval arr

/-- The features that are tested. -/
def features : Tree f → List ℤ
  | .leaf _ => []
  | .node _ x left right => (x : ℤ) :: (left.features ++ right.features)

end Tree

/-! ## Lines -/

inductive Op where
  | ifn0cmple
  | ifn0cmpgt
  | ifnotnan
  | ifnan
  | ifnanorcmple
  | ifnotnanandcmple
  | ifcmple
  | ifcmpgt
  | else_
  | endif
  | return_
  | defproc
  | endproc
  deriving DecidableEq

structure Line (f : Format) where
  op : Op
  x : ℤ
  c : Number f
  s : ℤ

def Test.line (x : ℕ) : Test f → Line f
  | .n0cmple c => ⟨.ifn0cmple, x, c.val, 0⟩
  | .notnan => ⟨.ifnotnan, x, .nan f, 0⟩
  | .nan => ⟨.ifnan, x, .nan f, 0⟩
  | .nanorcmple c => ⟨.ifnanorcmple, x, c.val, 0⟩
  | .notnanandcmple c => ⟨.ifnotnanandcmple, x, c.val, 0⟩

/-- `improve`, of the code of a tree. -/
def improve : Tree f → List (Line f)
  | .leaf c => [⟨.return_, -1, c.val, -1⟩]
  | .node test x left right =>
    test.line x :: (improve left ++ ⟨.else_, -1, .nan f, -1⟩ :: (improve right ++
      [⟨.endif, -1, .nan f, -1⟩]))

/-- A line of `reimprove`; an assertion may fail. -/
def reimproveLine (l : Line f) : Option (Line f) :=
  match l.op with
  | .ifn0cmple =>
    if l.s = 0 then
      if l.c.lt (.zero f) then some { l with op := .ifcmple }
      else if l.c.ge (.zero f) then some { l with op := .ifcmpgt, s := 1 }
      else none
    else none
  | .ifnotnanandcmple => if l.s = 0 then some { l with op := .ifcmple } else none
  | .ifnanorcmple => if l.s = 0 then some { l with op := .ifcmpgt, s := 1 } else none
  | .ifnotnan => if l.s = 0 then some { l with op := .ifcmple, c := .inf f false } else none
  | .ifnan => if l.s = 0 then some { l with op := .ifcmple, c := .inf f false, s := 1 } else none
  | _ => some l

def reimprove (code : List (Line f)) : Option (List (Line f)) := code.mapM reimproveLine

/-- A line of `revamp`; a feature may be missing. -/
def revampLine (mapping : ℤ → Option ℤ) (l : Line f) : Option (Line f) :=
  if l.x ≠ -1 then (mapping l.x).map fun x => { l with x := x } else some l

def revamp (mapping : ℤ → Option ℤ) (code : List (Line f)) : Option (List (Line f)) :=
  code.mapM (revampLine mapping)

/-! ## C++ -/

/-- A constant as `finish` prints it. -/
inductive Literal (f : Format) where
  /-- `INFINITY` or `-INFINITY` -/
  | infinity (negative : Bool)
  /-- `nan()` -/
  | nan
  | number (c : Number f)

def literal (c : Number f) : Literal f :=
  if c.isInf then if c.lt (.zero f) then .infinity true else .infinity false
  else if c.isNaN then .nan
  else .number c

inductive Cond (f : Format) where
  /-- `a[x] <= c` -/
  | le (x : ℤ) (c : Literal f)
  /-- `a[x] > c` -/
  | gt (x : ℤ) (c : Literal f)
  /-- `tmp <= c`, where `tmp` is `a[x]`, or zero for NaN -/
  | n0le (x : ℤ) (c : Literal f)
  /-- `tmp > c` -/
  | n0gt (x : ℤ) (c : Literal f)
  /-- `isnan(a[x])` -/
  | isnan (x : ℤ)
  /-- `!isnan(a[x])` -/
  | notIsnan (x : ℤ)
  /-- `isnan(a[x]) || a[x] <= c` -/
  | isnanOrLe (x : ℤ) (c : Literal f)
  /-- `!isnan(a[x]) && a[x] <= c` -/
  | notIsnanAndLe (x : ℤ) (c : Literal f)

/-- A line of C++. -/
inductive Cpp (f : Format) where
  /-- `#include <math.h>` -/
  | includeMath
  /-- the head of the function of a tree -/
  | function (x : ℤ)
  /-- `if (..) {`, or `if (!(..)) {` -/
  | ifOpen (negated : Bool) (cond : Cond f)
  /-- `} else {` -/
  | elseOpen
  /-- `}` -/
  | close
  /-- `return c;` -/
  | return_ (c : Literal f)
  /-- the function that adds up the functions of the trees -/
  | total (trees : List ℤ)

/-- The line of C++ for a line. -/
def cppLine (l : Line f) : Cpp f :=
  let c := literal l.c
  let negated := decide (l.s = 1)
  match l.op with
  | .defproc => .function l.x
  | .ifcmple => .ifOpen negated (.le l.x c)
  | .ifcmpgt => .ifOpen negated (.gt l.x c)
  | .ifn0cmple => .ifOpen negated (.n0le l.x c)
  | .ifn0cmpgt => .ifOpen negated (.n0gt l.x c)
  | .ifnan => .ifOpen negated (.isnan l.x)
  | .ifnotnan => .ifOpen negated (.notIsnan l.x)
  | .ifnanorcmple => .ifOpen negated (.isnanOrLe l.x c)
  | .ifnotnanandcmple => .ifOpen negated (.notIsnanAndLe l.x c)
  | .endif | .endproc => .close
  | .else_ => .elseOpen
  | .return_ => .return_ c

/-- How the indentation changes before a line is written, and after. -/
def indentSteps : Op → ℤ × ℤ
  | .endif | .endproc => (-1, 0)
  | .else_ => (-1, 1)
  | .return_ => (0, 0)
  | _ => (0, 1)

structure Emitted (f : Format) where
  indent : ℤ
  cpp : Cpp f

structure Emitter (f : Format) where
  indent : ℤ := 0
  res : List (Emitted f)
  trees : List ℤ := []

/-- A line of `finish`.  The head of a function is not indented. -/
def finishLine (e : Emitter f) (l : Line f) : Emitter f where
  indent := e.indent + (indentSteps l.op).1 + (indentSteps l.op).2
  res := e.res ++
    [⟨if l.op = .defproc then 0 else e.indent + (indentSteps l.op).1, cppLine l⟩]
  trees := if l.op = .defproc then e.trees ++ [l.x] else e.trees

def finish (code : List (Line f)) : List (Emitted f) :=
  let e := code.foldl finishLine { res := [⟨0, .includeMath⟩] }
  e.res ++ [⟨0, .total e.trees.reverse⟩]

/-! ## The meaning of the C++ -/

def Literal.value : Literal f → Number f
  | .infinity negative => .inf f negative
  | .nan => .nan f
  | .number c => c

def Cond.holds (a : ℤ → Number f) : Cond f → Bool
  | .le x c => (a x).le c.value
  | .gt x c => (a x).gt c.value
  | .n0le x c => (a x).replaceNaN.le c.value
  | .n0gt x c => (a x).replaceNaN.gt c.value
  | .isnan x => (a x).isNaN
  | .notIsnan x => !(a x).isNaN
  | .isnanOrLe x c => (a x).isNaN || (a x).le c.value
  | .notIsnanAndLe x c => !(a x).isNaN && (a x).le c.value

/-- Control, on a pass over the lines: there are no loops. -/
inductive Control (f : Format) where
  | running
  /-- on the way over a block that is not taken, at a depth of blocks in it -/
  | skipping (depth : ℕ)
  /-- on the way over the `else` block of a block that was taken -/
  | skippingElse (depth : ℕ)
  | returned (c : Number f)
  /-- the end of the function was reached -/
  | fellOff

def Control.next (a : ℤ → Number f) : Control f → Cpp f → Control f
  | .running, .ifOpen negated cond =>
    if (if negated then !cond.holds a else cond.holds a) then .running else .skipping 0
  | .running, .elseOpen => .skippingElse 0
  | .running, .return_ c => .returned c.value
  | .running, .function _ => .fellOff
  | .running, .total _ => .fellOff
  | .running, _ => .running
  | .skipping depth, .ifOpen _ _ => .skipping (depth + 1)
  | .skipping 0, .elseOpen => .running
  | .skipping 0, .close => .running
  | .skipping (depth + 1), .close => .skipping depth
  | .skipping depth, _ => .skipping depth
  | .skippingElse depth, .ifOpen _ _ => .skippingElse (depth + 1)
  | .skippingElse 0, .close => .running
  | .skippingElse (depth + 1), .close => .skippingElse depth
  | .skippingElse depth, _ => .skippingElse depth
  | .returned c, _ => .returned c
  | .fellOff, _ => .fellOff

/-- The value returned, if any. -/
def Control.result : Control f → Option (Number f)
  | .returned c => some c
  | _ => none

/-- The value returned by the lines. -/
def run (a : ℤ → Number f) (lines : List (Emitted f)) : Option (Number f) :=
  (lines.foldl (fun control l => Control.next a control l.cpp) .running).result

/-- The head of the function of a tree. -/
def Cpp.isFunction (x : ℤ) : Cpp f → Bool
  | .function y => y = x
  | _ => false

/-- The value returned by the function of a tree. -/
def call (x : ℤ) (a : ℤ → Number f) (file : List (Emitted f)) : Option (Number f) :=
  run a ((file.dropWhile fun l => !l.cpp.isFunction x).drop 1)

/-! ## The script -/

/-- The lines of a tree between `improve` and `finish`. -/
def convert (mapping : ℤ → Option ℤ) (tree : Tree f) : Option (List (Line f)) := do
  let body ← reimprove (improve tree)
  revamp mapping body

/-- The lines of the function of a tree. -/
def proc (mapping : ℤ → Option ℤ) (k : ℤ) (tree : Tree f) : Option (List (Line f)) := do
  let body ← convert mapping tree
  some (⟨.defproc, k, .nan f, -1⟩ :: (body ++ [⟨.endproc, -1, .nan f, -1⟩]))

/-- `procfile`, of the trees in the order of their numbers. -/
def procfile (mapping : ℤ → Option ℤ) (visited : List (ℤ × Tree f)) :
    Option (List (Emitted f)) := do
  let res ← visited.mapM fun v => proc mapping v.1 v.2
  some (finish res.flatten)

end ConvertModel

end Mdd2
