/-
  Prices come through the feeds and the metadata unchanged.

  * `cents_toDouble`: the cents of a price survive the two roundings of `double`s;
  * `Row` is a line of the metadata, and `Row.Says` what it says of a stock;
  * `next_tokens`: the reads of a line give its columns one after the other;
  * `getStatic_find`: `getStatic` finds the first line of a stock, with its prices;
  * `feedPrices_exact`: a live build compares with the very limit price of the exchange.
-/
import Mdd2.Metadata
import Mdd2.StockState

namespace Mdd2

open Rounding Text

/-! ## Cents -/

/-- **The cents of a price are exact.** -/
theorem cents_toDouble {n : ℤ} (h : |n| < 2 ^ 31) : cents (toDouble (n / 100)) = n := by
  have h' : |(n : ℚ)| < 2 ^ 31 := by exact_mod_cast h
  exact_mod_cast roundAway_scaled (p := 53) (s := 100) (n := n) (by decide)
    (by linarith [show (2 : ℚ) ^ 31 * 8 ≤ 2 ^ 53 by norm_num]) (by decide)

/-! ## The limit price of a live build -/

/-- The price that the ticks are compared with. -/
def StockState.watchedPrice (s : StockState) : Market → ℕ
  | .SH => s.upperLimitPrice1000
  | .SZ => s.upperLimitPrice10000

/-- The unit of the prices in ticks. -/
def priceUnit : Market → ℕ
  | .SH => 1000
  | .SZ => 10000

theorem watchedPrice_onStatic {m : Market} {b : Build} (hb : b = .ne m ∨ b = .ost m)
    (s : StockState) {stat : Stat} (hm : stat.marketType = m) (h0 : 0 ≤ stat.upperLimitPrice)
    (h : stat.upperLimitPrice * 10 < 2 ^ 32) :
    ((s.onStatic b stat).watchedPrice m : ℤ) = stat.upperLimitPrice * (priceUnit m / 100 : ℕ) ∧
      ((s.onStatic b stat).alive = true ↔ s.alive = true ∨ stat.upperLimitPrice ≠ 0) := by
  have hwatch : ∀ (t : StockState) (x : ℤ), (t.watch x).watchedPrice m = t.watchedPrice m ∧
      ((t.watch x).alive = true ↔ t.alive = true ∨ x ≠ 0) := by
    intro t x
    rw [StockState.watch]
    split_ifs with hx
    · exact ⟨rfl, by simp [hx]⟩
    · exact ⟨rfl, by simp [hx]⟩
  have h32 : (Word.toUnsigned 32 (stat.upperLimitPrice * 10) : ℤ) = stat.upperLimitPrice * 10 :=
    Word.toUnsigned_of_range (by omega) (by omega)
  have h64 : (Word.toUnsigned 64 (stat.upperLimitPrice * 100) : ℤ) = stat.upperLimitPrice * 100 :=
    Word.toUnsigned_of_range (by omega) (by omega)
  rcases hb with rfl | rfl <;> cases m
  · rw [StockState.onStatic, if_pos hm, (hwatch _ _).1, (hwatch _ _).2]
    exact ⟨h32, Iff.rfl⟩
  · rw [StockState.onStatic, if_pos hm, (hwatch _ _).1, (hwatch _ _).2]
    exact ⟨h64, Iff.rfl⟩
  · rw [StockState.onStatic, (hwatch _ _).1, (hwatch _ _).2]
    exact ⟨h32, Iff.rfl⟩
  · rw [StockState.onStatic, (hwatch _ _).1, (hwatch _ _).2]
    exact ⟨h64, Iff.rfl⟩

/-- **A live build watches the very limit price.**  Where the feed gives the `double` next to
    a price of `n` cents, a price in the unit of the ticks passes the comparison with the limit
    if and only if it is `n` cents; and a stock is watched unless the price is zero. -/
theorem feedPrices_exact {m : Market} {b : Build} (hb : b = .ne m ∨ b = .ost m) (s : StockState)
    (stock : Int32) (prevClosePx : ℚ) {n : ℤ} (h0 : 0 ≤ n) (h : n * 10 < 2 ^ 32)
    (tradingDay : ℤ) (q : ℕ) :
    let t := s.onStatic b (.ofFeed stock m prevClosePx (toDouble (n / 100)) tradingDay)
    (q = t.watchedPrice m ↔ (q : ℚ) / priceUnit m = n / 100) ∧
      (t.alive = true ↔ s.alive = true ∨ n ≠ 0) := by
  let stat := Stat.ofFeed stock m prevClosePx (toDouble (n / 100)) tradingDay
  have hstat : stat.upperLimitPrice = n := cents_toDouble (by rw [abs_of_nonneg h0]; omega)
  obtain ⟨hprice, halive⟩ := watchedPrice_onStatic hb s rfl (hstat ▸ h0) (hstat ▸ h)
  rw [hstat] at hprice halive
  refine ⟨?_, halive⟩
  rw [← Nat.cast_inj (R := ℤ), hprice]
  have hunit : (priceUnit m : ℚ) = (priceUnit m / 100 : ℕ) * 100 := by
    cases m <;> norm_num [priceUnit]
  have hpos : (0 : ℚ) < (priceUnit m / 100 : ℕ) := by
    cases m <;> norm_num [priceUnit]
  generalize priceUnit m / 100 = k at hunit hpos ⊢
  rw [hunit, div_eq_div_iff (by positivity) (by norm_num), ← mul_assoc]
  constructor
  · intro heq
    rw [show (q : ℚ) = n * k by exact_mod_cast heq]
  · intro heq
    exact_mod_cast mul_right_cancel₀ (by norm_num) heq

/-- 11.55 yuan in Shanghai. -/
theorem feedPrices_exact_nesh :
    let t := (StockState.start 600000).onStatic (.ne .SH)
      (.ofFeed 600000 .SH (toDouble 10.5) (toDouble ((1155 : ℤ) / 100)) 20250102)
    (11550 = t.watchedPrice .SH ↔ ((11550 : ℕ) : ℚ) / priceUnit .SH = (1155 : ℤ) / 100) ∧
      (t.alive = true ↔ (StockState.start 600000).alive = true ∨ (1155 : ℤ) ≠ 0) :=
  feedPrices_exact (.inl rfl) _ _ _ (by decide) (by decide) _ 11550

namespace Metadata

/-- The text is a price of so many cents, in any decimal notation. -/
structure Denotes (token : List Char) (n : ℤ) : Prop where
  decimal : decimal token = .ok (n / 100)
  bound : |n| < 2 ^ 31

theorem TokenStream.price_of_denotes {iss : TokenStream} {n : ℤ} (h : Denotes iss.token n) :
    iss.price = .ok n := by
  rw [price, stod, h.decimal]
  exact congrArg Except.ok (cents_toDouble h.bound)

/-- The usual notation has two digits behind the point. -/
theorem denotes_cents {n d : ℕ} (hd : d < 100) (h : n * 100 + d < 2 ^ 31) :
    Denotes (Nat.toDigits 10 n ++ ['.', (d / 10).digitChar, (d % 10).digitChar])
      (n * 100 + d) := by
  have hdigit : ∀ k < 10, k.digitChar.isDigit := fun k hk =>
    isDigit_toDigits (n := k) (by rw [Nat.toDigits_of_lt_base hk]; exact List.mem_singleton_self _)
  have hdigits : ∀ c ∈ [(d / 10).digitChar, (d % 10).digitChar], c.isDigit := by
    intro c hc
    rcases List.mem_pair.1 hc with rfl | rfl
    · exact hdigit _ (by omega)
    · exact hdigit _ (by omega)
  refine ⟨?_, abs_lt.2 ⟨by omega, by omega⟩⟩
  rw [decimal_fraction n hdigits, Nat.ofDigitChars_cons_digitChar_of_lt_ten (by omega),
    Nat.ofDigitChars_cons_digitChar_of_lt_ten (by omega), Nat.ofDigitChars_nil,
    show 10 * (10 * 0 + d / 10) + d % 10 = d by omega]
  norm_num

/-! ## Columns -/

/-- A stream with some columns left. -/
def columns (token : List Char) : List (List Char) → TokenStream
  | [] => ⟨[], true, token⟩
  | t :: ts => ⟨List.intercalate [','] (t :: ts), false, token⟩

/-- **A read takes the next column.** -/
theorem next_columns {t : List Char} (h : ',' ∉ t) (token : List Char) (ts : List (List Char)) :
    (columns token (t :: ts)).next = columns t ts := by
  cases ts with
  | nil => simp [columns, TokenStream.next, find_eq_none h]
  | cons t' ts =>
    have hsplit : List.intercalate [','] (t :: t' :: ts) =
        t ++ ',' :: List.intercalate [','] (t' :: ts) := by
      simp [List.intercalate]
    rw [columns, TokenStream.next, if_neg Bool.false_ne_true, hsplit]
    simp only [find_append h, substr_left, substr_right, columns]

/-- The columns of a line. -/
structure Row where
  date : List Char
  code : List Char
  name : List Char
  openPrice : List Char
  preClosePrice : List Char
  highPrice : List Char
  lowPrice : List Char
  closePrice : List Char
  upperLimitPrice : List Char
  lowerLimitPrice : List Char
  floatMV : List Char
  rest : List (List Char)

namespace Row

def tokens (r : Row) : List (List Char) :=
  r.date :: r.code :: r.name :: r.openPrice :: r.preClosePrice :: r.highPrice :: r.lowPrice ::
    r.closePrice :: r.upperLimitPrice :: r.lowerLimitPrice :: r.floatMV :: r.rest

def text (r : Row) : List Char := List.intercalate [','] r.tokens

/-- What a line says of a stock. -/
structure Says (r : Row) (stat : MetadataStat) : Prop where
  noComma : ∀ t ∈ r.tokens, ',' ∉ t
  code : stoi r.code = .ok stat.stock
  openPrice : Denotes r.openPrice stat.openPrice
  preClosePrice : Denotes r.preClosePrice stat.preClosePrice
  highPrice : Denotes r.highPrice stat.highPrice
  lowPrice : Denotes r.lowPrice stat.lowPrice
  closePrice : Denotes r.closePrice stat.closePrice
  upperLimitPrice : Denotes r.upperLimitPrice stat.upperLimitPrice
  lowerLimitPrice : Denotes r.lowerLimitPrice stat.lowerLimitPrice
  floatMV : ∃ x, decimal r.floatMV = .ok x ∧ stat.floatMV = toDouble (toDouble x * 10000)

end Row

theorem readLine_says {r : Row} {stat : MetadataStat} (h : r.Says stat) (stock : Int32) :
    readLine stock r.text = .ok (if stat.stock = stock then some stat else none) := by
  have hcomma := h.noComma
  simp only [Row.tokens, List.forall_mem_cons] at hcomma
  obtain ⟨hdate, hcode, hname, hopen, hpre, hhigh, hlow, hclose, hupper, hlower, hmv, -⟩ := hcomma
  obtain ⟨x, hx, hfloat⟩ := h.floatMV
  have hstart : TokenStream.mk r.text false [] = columns [] r.tokens := rfl
  rw [readLine, hstart, Row.tokens, next_columns hdate, next_columns hcode]
  have htoken : ∀ (t : List Char) (ts : List (List Char)), (columns t ts).token = t := by
    intro t ts
    cases ts <;> rfl
  simp only [htoken, h.code, bind, Except.bind, next_columns hname, next_columns hopen,
    next_columns hpre, next_columns hhigh, next_columns hlow, next_columns hclose,
    next_columns hupper, next_columns hlower, next_columns hmv]
  by_cases hstock : stat.stock = stock
  · have hprice : ∀ {t : List Char} {n : ℤ} (ts : List (List Char)), Denotes t n →
        (columns t ts).price = .ok n :=
      fun ts ht => TokenStream.price_of_denotes (by rwa [htoken])
    rw [if_neg (not_not.2 hstock), if_pos hstock]
    simp only [hprice _ h.openPrice, hprice _ h.preClosePrice, hprice _ h.highPrice,
      hprice _ h.lowPrice, hprice _ h.closePrice, hprice _ h.upperLimitPrice,
      hprice _ h.lowerLimitPrice, stod, hx, Except.map, pure, Except.pure]
    rw [← hfloat]
  · rw [if_pos hstock, if_neg hstock]
    rfl

theorem readLines_says {rows : List (Row × MetadataStat)} (h : ∀ r ∈ rows, r.1.Says r.2)
    (stock : Int32) : readLines stock (rows.map fun r => r.1.text) =
      .ok (((rows.map (·.2)).find? fun stat => stat.stock = stock).getD .zero) := by
  induction rows with
  | nil => rfl
  | cons r rows ih =>
    obtain ⟨hr, hrows⟩ := List.forall_mem_cons.1 h
    rw [List.map_cons, readLines, readLine_says hr]
    by_cases hstock : r.2.stock = stock
    · simp [hstock, bind, Except.bind, pure, Except.pure]
    · simp only [hstock, if_false, bind, Except.bind, ih hrows]
      simp [hstock]

/-- **The metadata of a stock is its first line.**  In a file whose lines say what the
    metadata of their stocks are, in any decimal notation of the prices, a stock has the
    metadata of its first line, with exact prices in cents; a stock that is not in the file
    has all zeros. -/
theorem getStatic_find {text header : List Char} {rows : List (Row × MetadataStat)}
    (htext : getlines '\n' text = header :: rows.map fun r => r.1.text)
    (h : ∀ r ∈ rows, r.1.Says r.2) (stock : Int32) :
    getStatic (some text) stock =
      .ok (((rows.map (·.2)).find? fun stat => stat.stock = stock).getD .zero) := by
  rw [getStatic, htext, List.tail_cons, readLines_says h]
  rfl

/-- A file with two stocks. -/
def twoRows : List (Row × MetadataStat) :=
  [(⟨"20250102".toList, "1".toList, "a".toList, "10.57".toList, "10.5".toList, "11.25".toList,
      "10".toList, "10.25".toList, "11.55".toList, "9.45".toList, "123456.5".toList, []⟩,
      ⟨⟨1, 1057, 1050, 1025, 1155, 945⟩, 1125, 1000, 1234565000⟩),
    (⟨"20250102".toList, "600000".toList, "b".toList, "7.29".toList, "7.3".toList, "7.3".toList,
      "7.29".toList, "7.29".toList, "8.03".toList, "6.57".toList, "1e3".toList, ["c".toList]⟩,
      ⟨⟨600000, 729, 730, 729, 803, 657⟩, 730, 729, 10000000⟩)]

theorem says_twoRows : ∀ r ∈ twoRows, r.1.Says r.2 := by
  simp only [twoRows, List.forall_mem_cons]
  refine ⟨⟨?_, ?_, ⟨?_, ?_⟩, ⟨?_, ?_⟩, ⟨?_, ?_⟩, ⟨?_, ?_⟩, ⟨?_, ?_⟩, ⟨?_, ?_⟩, ⟨?_, ?_⟩,
      ⟨246913 / 2, ?_, ?_⟩⟩,
    ⟨?_, ?_, ⟨?_, ?_⟩, ⟨?_, ?_⟩, ⟨?_, ?_⟩, ⟨?_, ?_⟩, ⟨?_, ?_⟩, ⟨?_, ?_⟩, ⟨?_, ?_⟩,
      ⟨1000, ?_, ?_⟩⟩, fun r hr => absurd hr List.not_mem_nil⟩ <;> decide +kernel

theorem getStatic_find_two :
    getStatic (some ((("date,code".toList :: twoRows.map (·.1.text)).flatMap
      (· ++ ['\n'])))) 600000 =
    .ok ⟨⟨600000, 729, 730, 729, 803, 657⟩, 730, 729, 10000000⟩ :=
  getStatic_find (getlines_flatMap (by decide +kernel)) says_twoRows 600000

end Metadata

end Mdd2
