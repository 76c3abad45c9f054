/-
  Strings as lists of characters, with what `std::string` and `std::getline` do.

  A position is `none` where the library returns `npos`.

  * `getlines_line`, `mem_getlines`: the lines of a text, and what is in them;
  * `find_append`, `substr_left`, `substr_right`: cutting at the first delimiter;
  * `findFirstNotOf_pad`, `findLastNotOf_pad`: cutting off a surrounding set of characters;
  * `exists_pad`: every string is characters of the set around what is left;
  * `stoi_numeral`: a number in decimal is read back, whatever follows its digits;
  * `decimal_fraction`: so is a fraction.
-/
import Mathlib

namespace Text

section
variable {α : Type} [DecidableEq α] {delim c : α} {s set line pre post left body right : List α}

/-! ## Lines -/

/-- The lines that `std::getline` reads, one after the other, until it fails. -/
def getlines (delim : α) : List α → List (List α)
  | [] => []
  | c :: cs =>
    if c = delim then [] :: getlines delim cs
    else match getlines delim cs with
      | [] => [[c]]
      | line :: lines => (c :: line) :: lines

/-- A line that was written is the next one that is read. -/
theorem getlines_line (h : delim ∉ line) (rest : List α) :
    getlines delim (line ++ delim :: rest) = line :: getlines delim rest := by
  induction line with
  | nil => rw [List.nil_append, getlines, if_pos rfl]
  | cons c line ih =>
    rw [List.mem_cons, not_or] at h
    rw [List.cons_append, getlines, if_neg (Ne.symm h.1), ih h.2]

theorem getlines_flatMap {lines : List (List α)} (h : ∀ line ∈ lines, delim ∉ line) :
    getlines delim (lines.flatMap (· ++ [delim])) = lines := by
  induction lines with
  | nil => rfl
  | cons line lines ih =>
    rw [List.forall_mem_cons] at h
    rw [List.flatMap_cons, List.append_assoc, List.singleton_append, getlines_line h.1, ih h.2]

theorem mem_getlines (h : line ∈ getlines delim s) : delim ∉ line := by
  induction s generalizing line with
  | nil => exact absurd h List.not_mem_nil
  | cons c s ih =>
    rw [getlines] at h
    split_ifs at h with hc
    · rcases List.mem_cons.1 h with rfl | h
      · exact List.not_mem_nil
      · exact ih h
    · cases hlines : getlines delim s with
      | nil =>
        rw [hlines] at h
        obtain rfl := List.mem_singleton.1 h
        exact fun hd => hc (List.mem_singleton.1 hd).symm
      | cons first lines =>
        rw [hlines] at h
        rcases List.mem_cons.1 h with rfl | h
        · intro hd
          rcases List.mem_cons.1 hd with rfl | hd
          · exact hc rfl
          · exact ih (hlines ▸ List.mem_cons_self) hd
        · exact ih (hlines ▸ List.mem_cons_of_mem _ h)

/-! ## Positions -/

def find (s : List α) (c : α) : Option ℕ := s.findIdx? fun x => x = c

/-- `substr(pos, count)`, from a position that is not past the end. -/
def substr (s : List α) (pos : ℕ) (count : Option ℕ) : List α :=
  match count with
  | none => s.drop pos
  | some count => (s.drop pos).take count

theorem find_append (h : c ∉ pre) (post : List α) :
    find (pre ++ c :: post) c = some pre.length := by
  rw [find, List.findIdx?_append, List.findIdx?_eq_none_iff.2]
  · simp [List.findIdx?_cons]
  · intro x hx
    exact decide_eq_false fun he => h (he ▸ hx)

theorem find_eq_none (h : c ∉ s) : find s c = none :=
  List.findIdx?_eq_none_iff.2 fun _ hx => decide_eq_false fun he => h (he ▸ hx)

omit [DecidableEq α] in
/-- What precedes a position. -/
theorem substr_left (pre post : List α) : substr (pre ++ post) 0 (some pre.length) = pre := by
  rw [substr, List.drop_zero, List.take_left]

omit [DecidableEq α] in
theorem substr_right (pre post : List α) (c : α) :
    substr (pre ++ c :: post) (pre.length + 1) none = post := by
  rw [substr, ← List.drop_drop, List.drop_left, List.drop_one, List.tail_cons]

/-- A string is what precedes the first delimiter, and the rest. -/
theorem exists_find (s : List α) (c : α) : c ∉ s ∨ ∃ pre post, c ∉ pre ∧ s = pre ++ c :: post := by
  by_cases h : c ∈ s
  · right
    obtain ⟨pre, post, rfl, hpre⟩ := List.eq_append_cons_of_mem h
    exact ⟨pre, post, hpre, rfl⟩
  · exact .inl h

/-! ## Surrounding characters -/

def findFirstNotOf (s set : List α) : Option ℕ := s.findIdx? fun x => x ∉ set

def findLastNotOf (s set : List α) : Option ℕ :=
  (findFirstNotOf s.reverse set).map fun i => s.length - 1 - i

/-- Characters of a set around a string that begins and ends with others. -/
structure Pad (set left body right : List α) : Prop where
  left : ∀ x ∈ left, x ∈ set
  right : ∀ x ∈ right, x ∈ set
  head : ∀ x ∈ body.head?, x ∉ set
  last : ∀ x ∈ body.getLast?, x ∉ set

instance (set left body right : List α) : Decidable (Pad set left body right) :=
  decidable_of_iff ((∀ x ∈ left, x ∈ set) ∧ (∀ x ∈ right, x ∈ set) ∧ (∀ x ∈ body.head?, x ∉ set) ∧
    ∀ x ∈ body.getLast?, x ∉ set)
    ⟨fun h => ⟨h.1, h.2.1, h.2.2.1, h.2.2.2⟩, fun h => ⟨h.left, h.right, h.head, h.last⟩⟩

theorem findFirstNotOf_pad (h : Pad set left body right) (hbody : body ≠ []) :
    findFirstNotOf (left ++ body ++ right) set = some left.length := by
  obtain ⟨x, body, rfl⟩ := List.exists_cons_of_ne_nil hbody
  have hleft : left.findIdx? (fun x => x ∉ set) = none :=
    List.findIdx?_eq_none_iff.2 fun y hy => decide_eq_false (not_not.2 (h.left y hy))
  rw [findFirstNotOf, List.append_assoc, List.findIdx?_append, hleft, List.cons_append]
  simp [List.findIdx?_cons, h.head x rfl]

omit [DecidableEq α] in
theorem Pad.reverse (h : Pad set left body right) :
    Pad set right.reverse body.reverse left.reverse where
  left x hx := h.right x (List.mem_reverse.1 hx)
  right x hx := h.left x (List.mem_reverse.1 hx)
  head x hx := h.last x (List.head?_reverse ▸ hx)
  last x hx := h.head x (List.getLast?_reverse ▸ hx)

theorem findLastNotOf_pad (h : Pad set left body right) (hbody : body ≠ []) :
    findLastNotOf (left ++ body ++ right) set = some (left.length + body.length - 1) := by
  have hpos := List.length_pos_iff.2 hbody
  rw [findLastNotOf, List.reverse_append, List.reverse_append, ← List.append_assoc,
    findFirstNotOf_pad h.reverse (by simpa using hbody)]
  simp only [Option.map_some, List.length_reverse, List.length_append]
  congr 1
  omega

theorem findFirstNotOf_eq_none (h : ∀ x ∈ s, x ∈ set) : findFirstNotOf s set = none :=
  List.findIdx?_eq_none_iff.2 fun x hx => decide_eq_false (not_not.2 (h x hx))

/-- **Every string is padded.** -/
theorem exists_pad (s set : List α) :
    ∃ left body right, s = left ++ body ++ right ∧ Pad set left body right := by
  by_cases hall : ∀ x ∈ s, x ∈ set
  · exact ⟨[], [], s, rfl, ⟨by simp, hall, by simp, by simp⟩⟩
  let p : α → Bool := fun x => x ∈ set
  let t := s.dropWhile p
  have ht : t ≠ [] := fun h => hall fun x hx =>
    of_decide_eq_true (List.dropWhile_eq_nil_iff.1 h x hx)
  have hhead : t.head ht ∉ set := of_decide_eq_false (List.head_dropWhile_not p ht)
  have hbody : t.rdropWhile p ≠ [] := fun h => hhead <|
    of_decide_eq_true (List.rdropWhile_eq_nil_iff.1 h _ (List.head_mem ht))
  refine ⟨s.takeWhile p, t.rdropWhile p, t.rtakeWhile p, ?_, ⟨?_, ?_, ?_, ?_⟩⟩
  · rw [List.append_assoc, List.rdropWhile_append_rtakeWhile, List.takeWhile_append_dropWhile]
  · exact fun x hx => of_decide_eq_true (show p x = true from List.mem_takeWhile_imp hx)
  · exact fun x hx => of_decide_eq_true (show p x = true from List.mem_rtakeWhile_imp hx)
  · intro x hx
    obtain ⟨rest, hrest⟩ := List.rdropWhile_prefix p t
    have hfirst : t.head? = some x := by
      rw [← hrest, List.head?_append, Option.mem_def.1 hx]
      rfl
    rw [List.head?_eq_some_head ht] at hfirst
    exact Option.some.inj hfirst ▸ hhead
  · intro x hx hmem
    rw [List.getLast?_eq_some_getLast hbody, Option.mem_some_iff] at hx
    subst hx
    exact List.rdropWhile_last_not p t hbody (decide_eq_true hmem)

end

/-! ## Numbers -/

inductive ConversionError where
  | invalid_argument
  | out_of_range
  deriving DecidableEq

def isspace (c : Char) : Bool := c ∈ [' ', '\t', '\n', '\x0b', '\x0c', '\r']

/-- A sign, if there is one, and what follows. -/
def splitSign : List Char → Bool × List Char
  | '-' :: cs => (true, cs)
  | '+' :: cs => (false, cs)
  | cs => (false, cs)

/-- `std::stoi`; what follows the digits is ignored. -/
def stoi (s : List Char) : Except ConversionError Int32 :=
  let (negative, rest) := splitSign (s.dropWhile isspace)
  let digits := rest.takeWhile Char.isDigit
  let n : ℤ := Nat.ofDigitChars 10 digits 0
  let n := if negative then -n else n
  if digits = [] then .error .invalid_argument
  else if n < -2 ^ 31 ∨ 2 ^ 31 ≤ n then .error .out_of_range
  else .ok (Int32.ofInt n)

/-- A number in decimal. -/
def numeral (n : ℤ) : List Char :=
  if n < 0 then '-' :: Nat.toDigits 10 n.natAbs else Nat.toDigits 10 n.natAbs

theorem isDigit_toDigits {n : ℕ} {c : Char} (h : c ∈ Nat.toDigits 10 n) : c.isDigit :=
  Nat.isDigit_of_mem_toDigits (by decide) (by decide) h

theorem takeWhile_toDigits (n : ℕ) {rest : List Char} (h : ∀ c ∈ rest.head?, ¬ c.isDigit) :
    (Nat.toDigits 10 n ++ rest).takeWhile Char.isDigit = Nat.toDigits 10 n := by
  rw [List.takeWhile_append_of_pos fun c hc => isDigit_toDigits hc]
  cases rest with
  | nil => exact List.append_nil _
  | cons c rest => rw [List.takeWhile_cons_of_neg (h c rfl), List.append_nil]

/-- A digit is neither a space nor a sign. -/
theorem splitSign_toDigits (n : ℕ) (rest : List Char) :
    splitSign ((Nat.toDigits 10 n ++ rest).dropWhile isspace) =
      (false, Nat.toDigits 10 n ++ rest) := by
  obtain ⟨c, cs, hc⟩ := List.exists_cons_of_ne_nil (@Nat.toDigits_ne_nil n 10)
  have hdigit : c.isDigit := isDigit_toDigits (hc ▸ List.mem_cons_self)
  have hspace : isspace c = false := by
    by_contra h
    simp only [isspace, Bool.not_eq_false, decide_eq_true_eq, List.mem_cons, List.not_mem_nil,
      or_false] at h
    rcases h with rfl | rfl | rfl | rfl | rfl | rfl <;> exact absurd hdigit (by decide)
  rw [hc, List.cons_append, List.dropWhile_cons_of_neg (by simp [hspace]), splitSign]
  · rintro cs' h
    obtain ⟨rfl, -⟩ := List.cons.inj h
    exact absurd hdigit (by decide)
  · rintro cs' h
    obtain ⟨rfl, -⟩ := List.cons.inj h
    exact absurd hdigit (by decide)

/-- **A number is read back.** -/
theorem stoi_numeral (n : Int32) {rest : List Char} (h : ∀ c ∈ rest.head?, ¬ c.isDigit) :
    stoi (numeral n.toInt ++ rest) = .ok n := by
  have hlt := n.toInt_lt
  have hle := n.le_toInt
  rw [stoi, numeral]
  by_cases hneg : n.toInt < 0
  · rw [if_pos hneg, List.cons_append, List.dropWhile_cons_of_neg (by decide)]
    simp only [splitSign, takeWhile_toDigits _ h, Nat.ofDigitChars_ten_toDigits, if_true,
      if_neg (@Nat.toDigits_ne_nil _ 10)]
    rw [if_neg (by omega), show -(n.toInt.natAbs : ℤ) = n.toInt by omega, Int32.ofInt_toInt]
  · rw [if_neg hneg, splitSign_toDigits]
    simp only [takeWhile_toDigits _ h, Nat.ofDigitChars_ten_toDigits, Bool.false_eq_true, if_false,
      if_neg (@Nat.toDigits_ne_nil _ 10)]
    rw [if_neg (by omega), show (n.toInt.natAbs : ℤ) = n.toInt by omega, Int32.ofInt_toInt]

/-! ## Decimal fractions -/

/-- The digits behind a point, if there is one, and what follows. -/
def splitFraction : List Char → List Char × List Char
  | '.' :: cs => (cs.takeWhile Char.isDigit, cs.dropWhile Char.isDigit)
  | cs => ([], cs)

/-- The exponent, if there is one. -/
def exponent : List Char → ℤ
  | [] => 0
  | c :: cs =>
    if c = 'e' ∨ c = 'E' then
      let (negative, rest) := splitSign cs
      let n : ℤ := Nat.ofDigitChars 10 (rest.takeWhile Char.isDigit) 0
      if negative then -n else n
    else 0

/-- The number that a string begins with, in decimal notation. -/
def decimal (s : List Char) : Except ConversionError ℚ :=
  let (negative, rest) := splitSign (s.dropWhile isspace)
  let whole := rest.takeWhile Char.isDigit
  let (fraction, rest) := splitFraction (rest.dropWhile Char.isDigit)
  let x : ℚ := Nat.ofDigitChars 10 (whole ++ fraction) 0 / 10 ^ fraction.length
  let x := if negative then -x else x
  if whole = [] ∧ fraction = [] then .error .invalid_argument
  else .ok (x * 10 ^ exponent rest)

theorem dropWhile_toDigits (n : ℕ) {rest : List Char} (h : ∀ c ∈ rest.head?, ¬ c.isDigit) :
    (Nat.toDigits 10 n ++ rest).dropWhile Char.isDigit = rest := by
  rw [List.dropWhile_append_of_pos fun c hc => isDigit_toDigits hc]
  cases rest with
  | nil => rfl
  | cons c rest => exact List.dropWhile_cons_of_neg (h c rfl)

/-- **A fraction is read back**, with any number of digits behind its point. -/
theorem decimal_fraction (n : ℕ) {fraction : List Char} (h : ∀ c ∈ fraction, c.isDigit) :
    decimal (Nat.toDigits 10 n ++ '.' :: fraction) =
      .ok ((n * 10 ^ fraction.length + Nat.ofDigitChars 10 fraction 0 : ℕ) /
        10 ^ fraction.length) := by
  have hpoint : ∀ c ∈ ('.' :: fraction).head?, ¬ c.isDigit := by
    rintro c hc
    obtain rfl := Option.some.inj hc
    decide
  have htake : fraction.takeWhile Char.isDigit = fraction := List.takeWhile_eq_self_iff.2 h
  have hdrop : fraction.dropWhile Char.isDigit = [] := List.dropWhile_eq_nil_iff.2 h
  rw [decimal, splitSign_toDigits]
  simp only [takeWhile_toDigits n hpoint, dropWhile_toDigits n hpoint, splitFraction, htake, hdrop,
    exponent, Bool.false_eq_true, if_false, @Nat.toDigits_ne_nil n 10, false_and, zpow_zero,
    mul_one]
  rw [Nat.ofDigitChars_append, Nat.ofDigitChars_ten_toDigits,
    Nat.ofDigitChars_eq_ofDigitChars_zero, mul_comm]

end Text
