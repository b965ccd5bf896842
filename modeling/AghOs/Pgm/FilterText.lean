import AghOs.Machine.Float32
import AghOs.Pgm.Convolution
import AghOs.Pgm.Loaders

/-!
# Filters as text

`write_filter` and `read_filter` (`src/cw08/zad1/src/filter.c`, lines 90–128) for
filters whose coefficients are `float`s, not negative, taken as rational numbers.
`%f` writes six digits behind the point and rounds to the nearest such number, the
even one of two; reading it gives the nearest `float`. Infinities, NaNs and
hexadecimal numbers, which `%f` reads too, are left out. The memory of a filter
holds what `malloc` left in it, until it is stored to.

* `sixDecimals_iff`: the floats that survive being written with six decimals.
* `readFilter_writeFilter`: the filter that is read back.
* `filter_round_trip_iff`: it is the one that was written exactly when the loops
  reach all of it and each coefficient is the float nearest to some number with six
  decimals.
-/

namespace AghOs.Pgm

open Checked (filterSize sizeFormat)

/-- A filter as `random_filter` leaves it: the size is an `int`, the coefficients are
    `float`s. -/
structure FloatFilter extends Filter where
  size_lt : size < 2 ^ 31
  nonneg : ∀ a ∈ data, 0 ≤ a
  float : ∀ a ∈ data, IsDyadic a
  finite : ∀ a ∈ data, a < 2 ^ 128

/-! ## `write_filter` -/

/-- The last `width` decimal digits of a number. -/
def lastDigits : ℕ → ℕ → List UInt8
  | 0, _ => []
  | width + 1, n => lastDigits width (n / 10) ++ [UInt8.ofNat (48 + n % 10)]

/-- A number in millionths, rounded. -/
def millionths (a : ℚ) : ℕ := (roundEven (a * 10 ^ 6)).toNat

/-- `%f` for a number that is not negative. -/
def printFloat (a : ℚ) : List UInt8 :=
  decimal (millionths a / 10 ^ 6) ++ [46] ++ lastDigits 6 (millionths a % 10 ^ 6)

/-- The texts that the loop writes, from `d` on. -/
def writeCoefficients (data : List ℚ) : ℕ → ℕ → List (List UInt8)
  | 0, _ => []
  | n + 1, d => (printFloat (data.getD d 0) ++ [32]) :: writeCoefficients data n (d + 1)

/-- `write_filter`; call `0` on the file is `fopen`. -/
def writeFilter (ok : ℕ → Bool) (f : Filter) : ℤ × List UInt8 :=
  if ok 0 then
    writeOrFail ok 1 ((decimal f.size ++ [10]) ::
      writeCoefficients f.data (intLoop (toSize (f.size * f.size))) 0) []
  else (-1, [])

/-! ## `read_filter` -/

/-- The sign at the head of a text. -/
def scanSign : List UInt8 → Bool × List UInt8
  | 43 :: input => (false, input)
  | 45 :: input => (true, input)
  | input => (false, input)

/-- The point and the digits behind it, if any. -/
def scanFraction : List UInt8 → List UInt8 × List UInt8
  | 46 :: input => (input.takeWhile isDigit, input.dropWhile isDigit)
  | input => ([], input)

/-- The exponent, if any; `none` if there is no number behind the letter. -/
def scanExponent : List UInt8 → Option (ℤ × List UInt8)
  | c :: input =>
    if c = 69 ∨ c = 101 then
      match scanNumber input with
      | (some e, rest) => some (e, rest)
      | (none, _) => none
    else some (0, c :: input)
  | [] => some (0, [])

/-- `%f`, without the white space in front. -/
def scanFloat (input : List UInt8) : Option (ℚ × List UInt8) :=
  let (neg, input) := scanSign input
  let int := input.takeWhile isDigit
  let (frac, rest) := scanFraction (input.dropWhile isDigit)
  if int ++ frac = [] then none
  else
    (scanExponent rest).map fun (e, rest) =>
      let value := nearestFloat (digitsValue (int ++ frac) * 10 ^ (e - frac.length))
      (if neg then -value else value, rest)

/-- `read_or_fail(1, "%f ", ...)` -/
def readCoefficient (input : List UInt8) : Except LoadError (ℚ × List UInt8) :=
  let input := input.dropWhile isWhite
  if input = [] then .error .library
  else
    match scanFloat input with
    | none => .error .einval
    | some (value, rest) => .ok (value, rest.dropWhile isWhite)

/-- The input, the coefficients and `d` in the loop of `read_filter`. -/
structure FilterLoading where
  input : List UInt8
  mem : ℤ → ℚ
  d : ℤ

/-- The body of the loop. -/
def loadCoefficient (s : FilterLoading) : Except LoadError FilterLoading :=
  match readCoefficient s.input with
  | .error e => .error e
  | .ok (value, rest) => .ok ⟨rest, Function.update s.mem s.d value, toInt (s.d + 1)⟩

/-- The filter in a block of memory. -/
def filterOf (size : ℕ) (mem : ℤ → ℚ) : Filter where
  size := size
  data := (List.range (size * size)).map fun i : ℕ => mem i
  length_data := by rw [List.length_map, List.length_range]

/-- `read_filter` on a file with the given text, if it can be opened; `malloc` is the
    memory that a call of it returns, if it succeeds. -/
def readFilter (malloc : ℕ → Option (ℤ → ℚ)) (file : Option (List UInt8)) :
    Except LoadError Filter :=
  match file with
  | none => .error .library
  | some text =>
    match readOrFail 1 sizeFormat text with
    | .error e => .error e
    | .ok (values, rest) =>
      let size := storedSize (values.getD 0 0)
      match malloc (filterSize (toInt size)) with
      | none => .error .library
      | some mem =>
        match times (intLoop (toSize (size * size))) loadCoefficient ⟨rest, mem, 0⟩ with
        | .error e => .error e
        | .ok s => .ok (filterOf (toSize (toInt size)) s.mem)

/-- What `write_filter` writes, if no call fails, `read_filter` reads back, if there is
    memory. -/
def RoundTrips (f : Filter) : Prop :=
  ∀ (ok : ℕ → Bool) (malloc : ℕ → Option (ℤ → ℚ)), (∀ i, ok i = true) →
    (malloc (filterSize f.size)).isSome →
    (writeFilter ok f).1 = 0 ∧ readFilter malloc (some (writeFilter ok f).2) = .ok f

/-! ## Six decimals -/

section

variable {a : ℚ}

theorem millionths_cast (h0 : 0 ≤ a) : ((millionths a : ℕ) : ℚ) = roundEven (a * 10 ^ 6) := by
  have hnonneg := roundEven_nonneg (mul_nonneg h0 (by norm_num : (0 : ℚ) ≤ 10 ^ 6))
  have hcast : ((millionths a : ℕ) : ℤ) = roundEven (a * 10 ^ 6) := Int.toNat_of_nonneg hnonneg
  exact_mod_cast congrArg (Int.cast (R := ℚ)) hcast

/-- What is written is at most half a millionth off. -/
theorem millionths_near (h0 : 0 ≤ a) :
    (millionths a : ℚ) / 10 ^ 6 ≤ a + 1 / 2 / 10 ^ 6 ∧
      a ≤ (millionths a : ℚ) / 10 ^ 6 + 1 / 2 / 10 ^ 6 := by
  obtain ⟨hlo, hhi⟩ := abs_le.mp (roundEven_half (a * 10 ^ 6))
  rw [← millionths_cast h0] at hlo hhi
  constructor <;> linarith

/-- A multiple of a millionth is written exactly. -/
theorem millionths_exact (h0 : 0 ≤ a) {n : ℕ} (hn : a * 10 ^ 6 = n) :
    (millionths a : ℚ) / 10 ^ 6 = a := by
  have h := roundEven_le (a * 10 ^ 6) n
  rw [← millionths_cast h0, hn, Int.cast_natCast, sub_self, abs_zero] at h
  have := abs_nonpos_iff.mp h
  linarith

/-- The last place of a float is never worth a millionth. -/
theorem ulp_millionth (e : ℤ) :
    (2 : ℚ) ^ e < 1 / 10 ^ 6 ∧ e ≤ -20 ∨ 1 / 10 ^ 6 < (2 : ℚ) ^ e ∧ -19 ≤ e := by
  obtain h | h := le_or_gt e (-20)
  · refine .inl ⟨(two_zpow_le h).trans_lt ?_, h⟩
    norm_num
  · refine .inr ⟨lt_of_lt_of_le ?_ (two_zpow_le (show -19 ≤ e by omega)), by omega⟩
    norm_num

/-- A number at least half a millionth below `a` is rounded to it: then the floats
    above are more than a millionth away. -/
theorem not_rounded_up (ha : IsDyadic a) {x : ℚ} (hx : 0 ≤ x) (hax : nearestFloat x = a)
    (hlt : x ≤ a - 1 / 2 / 10 ^ 6) {b : ℚ} (hb : IsDyadic b) (hab : a < b) :
    a + 1 / 10 ^ 6 < b := by
  have hpos : 0 < a := by linarith
  have hu := two_zpow_pos (ulpExp a)
  obtain ⟨m, hm, hm24⟩ := ha.normal hpos
  obtain ⟨n, hn⟩ | ⟨hsmall, he⟩ := hb.cases (ulpExp a)
  · have hbu : a + 2 ^ ulpExp a ≤ b := by
      have hmn : (m : ℚ) * 2 ^ ulpExp a < n * 2 ^ ulpExp a := by
        rw [← hm, ← hn]
        exact hab
      have hstep := units_succ_le hmn
      rwa [← hm, ← hn] at hstep
    obtain ⟨hmillionth, -⟩ | ⟨hmillionth, -⟩ := ulp_millionth (ulpExp a)
    · -- the float below is nearer to `x`
      have hm1 : 1 ≤ m := by
        by_contra h
        have hm0 : m = 0 := by omega
        rw [hm0, Nat.cast_zero, zero_mul] at hm
        linarith
      have hpred := nearestFloat_le hx (IsDyadic.pred hm24 (ulpExp_ge a))
      rw [Nat.cast_sub hm1, Nat.cast_one, sub_mul, one_mul, ← hm, hax,
        abs_of_nonpos (by linarith), le_abs] at hpred
      obtain h | h := hpred <;> linarith
    · linarith
  · linarith [ulpExp_le hpos he]

/-- A number at least half a millionth above `a` is rounded to it: then the floats
    below are more than a millionth away, unless `a` is a power of two. -/
theorem not_rounded_down (ha : IsDyadic a) (hpos : 0 < a)
    (hexact : (millionths a : ℚ) / 10 ^ 6 ≠ a) {x : ℚ} (hx : 0 ≤ x) (hax : nearestFloat x = a)
    (hlt : a + 1 / 2 / 10 ^ 6 ≤ x) {b : ℚ} (hb : IsDyadic b) (hab : b < a) :
    b < a - 1 / 10 ^ 6 := by
  have hu := two_zpow_pos (ulpExp a)
  obtain ⟨m, hm, hm24⟩ := ha.normal hpos
  have hsucc := nearestFloat_le hx (IsDyadic.succ hm24 (ulpExp_ge a))
  rw [Nat.cast_add, Nat.cast_one, add_mul, one_mul, ← hm, hax, abs_of_nonneg (by linarith),
    le_abs] at hsucc
  have hbig : 1 / 10 ^ 6 ≤ (2 : ℚ) ^ ulpExp a := by
    obtain h | h := hsucc <;> linarith
  obtain ⟨h, -⟩ | ⟨hmillionth, he19⟩ := ulp_millionth (ulpExp a)
  · linarith
  · obtain ⟨n, hn⟩ | ⟨hsmall, he⟩ := hb.cases (ulpExp a)
    · have hnm : (n : ℚ) * 2 ^ ulpExp a < m * 2 ^ ulpExp a := by
        rw [← hm, ← hn]
        exact hab
      have hstep := units_succ_le hnm
      rw [← hm, ← hn] at hstep
      linarith
    · have hpow : (2 : ℚ) ^ (23 + ulpExp a) = (2 ^ 23 : ℕ) * 2 ^ ulpExp a := by
        rw [two_zpow_add]
        norm_num
      have hle := ulpExp_le hpos he
      obtain heq | hgt := hle.eq_or_lt
      · -- a power of two that is an integer is written exactly
        obtain ⟨j, hj⟩ := Int.eq_ofNat_of_zero_le (show 0 ≤ 23 + ulpExp a by omega)
        refine absurd (millionths_exact hpos.le (n := 2 ^ j * 10 ^ 6) ?_) hexact
        rw [← heq, hj, zpow_natCast]
        push_cast
        rfl
      · have hstep : (2 : ℚ) ^ (23 + ulpExp a) + 2 ^ ulpExp a ≤ a := by
          have hmul : ((2 ^ 23 : ℕ) : ℚ) * 2 ^ ulpExp a < m * 2 ^ ulpExp a := by
            rw [← hpow, ← hm]
            exact hgt
          have hle := units_succ_le hmul
          rwa [← hpow, ← hm] at hle
        linarith

/-- Two numbers in millionths differ by one at least. -/
theorem millionth_step {i j : ℕ} (h : (i : ℚ) / 10 ^ 6 < (j : ℚ) / 10 ^ 6) :
    (i : ℚ) / 10 ^ 6 + 1 / 10 ^ 6 ≤ (j : ℚ) / 10 ^ 6 := by
  have hmillion : (0 : ℚ) < 10 ^ 6 := by norm_num
  have hij : i + 1 ≤ j := by exact_mod_cast (div_lt_div_iff_of_pos_right hmillion).mp h
  rw [← add_div, div_le_div_iff_of_pos_right hmillion]
  exact_mod_cast hij

/-- The floats that survive being written with six decimals. -/
theorem sixDecimals_iff (h0 : 0 ≤ a) (ha : IsDyadic a) :
    nearestFloat (millionths a / 10 ^ 6) = a ↔ ∃ k : ℕ, a = nearestFloat (k / 10 ^ 6) := by
  refine ⟨fun h => ⟨millionths a, h.symm⟩, ?_⟩
  rintro ⟨k, hk⟩
  obtain ⟨y, hy⟩ : ∃ y, (millionths a : ℚ) / 10 ^ 6 = y := ⟨_, rfl⟩
  obtain ⟨x, hx⟩ : ∃ x, (k : ℚ) / 10 ^ 6 = x := ⟨_, rfl⟩
  have hmillion : (0 : ℚ) < 10 ^ 6 := by norm_num
  have hx0 : 0 ≤ x := hx ▸ div_nonneg (Nat.cast_nonneg k) hmillion.le
  have hy0 : 0 ≤ y := hy ▸ div_nonneg (Nat.cast_nonneg _) hmillion.le
  obtain ⟨hnear, hnear'⟩ := millionths_near h0
  rw [hx] at hk
  rw [hy] at hnear hnear' ⊢
  have hb := nearestFloat_isDyadic hy0
  have hby := nearestFloat_le hy0 ha
  obtain hlt | heq | hgt := lt_trichotomy a y
  · obtain hyx | hxy := le_or_gt y x
    · exact nearestFloat_between hx0 hy0 hk.symm (.inl ⟨hlt.le, hyx⟩)
    · by_contra hne
      rw [abs_of_pos (sub_pos.mpr hlt), abs_le] at hby
      have hmore := millionth_step
        (show (k : ℚ) / 10 ^ 6 < (millionths a : ℚ) / 10 ^ 6 by rwa [hx, hy])
      rw [hx, hy] at hmore
      have hab : a < nearestFloat y := lt_of_le_of_ne (by linarith) (Ne.symm hne)
      have hfar := not_rounded_up ha hx0 hk.symm (by linarith) hb hab
      linarith
  · rw [← heq]
    exact nearestFloat_self ha h0
  · obtain hxy | hyx := le_or_gt x y
    · exact nearestFloat_between hx0 hy0 hk.symm (.inr ⟨hxy, hgt.le⟩)
    · by_contra hne
      rw [abs_of_neg (sub_neg.mpr hgt), abs_le] at hby
      have hmore := millionth_step
        (show (millionths a : ℚ) / 10 ^ 6 < (k : ℚ) / 10 ^ 6 by rwa [hx, hy])
      rw [hx, hy] at hmore
      have hab : nearestFloat y < a := lt_of_le_of_ne (by linarith) hne
      have hfar := not_rounded_down ha (by linarith) (by rw [hy]; exact hgt.ne) hx0 hk.symm
        (by linarith) hb hab
      linarith

end

/-! ## Reading a coefficient -/

theorem digitsValue_concat (cs : List UInt8) (c : UInt8) :
    digitsValue (cs ++ [c]) = 10 * digitsValue cs + (c.toNat - 48) := by
  unfold digitsValue
  rw [List.foldl_append]
  rfl

theorem digitsValue_lastDigits (cs : List UInt8) (width n : ℕ) :
    digitsValue (cs ++ lastDigits width n) = digitsValue cs * 10 ^ width + n % 10 ^ width := by
  induction width generalizing n with
  | zero => simp [lastDigits, Nat.mod_one]
  | succ width ih =>
    have hmod : n % 10 ^ (width + 1) = n % 10 + 10 * (n / 10 % 10 ^ width) := by
      rw [pow_succ', Nat.mod_mul]
    rw [lastDigits, ← List.append_assoc, digitsValue_concat, ih, toNat_digit, hmod, pow_succ,
      Nat.add_sub_cancel_left]
    ring

theorem isDigit_of_mem_lastDigits {width n : ℕ} {c : UInt8} (h : c ∈ lastDigits width n) :
    isDigit c = true := by
  induction width generalizing n with
  | zero => cases h
  | succ width ih =>
    rw [lastDigits] at h
    obtain h | h := List.mem_append.mp h
    · exact ih h
    · obtain rfl := List.mem_singleton.mp h
      unfold isDigit
      rw [toNat_digit, Bool.and_eq_true, decide_eq_true_eq, decide_eq_true_eq]
      omega

theorem length_lastDigits (width n : ℕ) : (lastDigits width n).length = width := by
  induction width generalizing n with
  | zero => rfl
  | succ width ih => rw [lastDigits, List.length_append, ih, List.length_singleton]

/-- The number of millionths that is written. -/
theorem digitsValue_printed (n : ℕ) :
    digitsValue (decimal (n / 10 ^ 6) ++ lastDigits 6 (n % 10 ^ 6)) = n := by
  rw [digitsValue_lastDigits, digitsValue_decimal]
  omega

theorem scanSign_digit {c : UInt8} (h : isDigit c = true) (cs : List UInt8) :
    scanSign (c :: cs) = (false, c :: cs) := by
  obtain ⟨-, hplus, hminus⟩ := isDigit_not_white h
  unfold scanSign
  split
  · exact absurd (List.cons.inj ‹_›).1 hplus
  · exact absurd (List.cons.inj ‹_›).1 hminus
  · rfl

/-- What was written is read as the float next to it. -/
theorem readCoefficient_printFloat (a : ℚ) (tail : List UInt8) :
    readCoefficient (printFloat a ++ 32 :: tail) =
      .ok (nearestFloat (millionths a / 10 ^ 6), tail.dropWhile isWhite) := by
  obtain ⟨n, hn⟩ : ∃ n, millionths a = n := ⟨_, rfl⟩
  have htext : printFloat a ++ 32 :: tail =
      decimal (n / 10 ^ 6) ++ (46 :: (lastDigits 6 (n % 10 ^ 6) ++ 32 :: tail)) := by
    rw [printFloat, hn, List.append_assoc, List.append_assoc]
    rfl
  have hint := isDigit_of_mem_decimal (n / 10 ^ 6)
  have hfrac : ∀ c ∈ lastDigits 6 (n % 10 ^ 6), isDigit c = true := fun c hc =>
    isDigit_of_mem_lastDigits hc
  obtain ⟨c, cs, hc, hd⟩ := decimal_eq_cons (n / 10 ^ 6)
  have hne : decimal (n / 10 ^ 6) ++ lastDigits 6 (n % 10 ^ 6) ≠ [] := by
    rw [hc]
    exact List.cons_ne_nil _ _
  have hsign : scanSign (printFloat a ++ 32 :: tail) = (false, printFloat a ++ 32 :: tail) := by
    rw [htext, hc]
    exact scanSign_digit hd _
  have hscan : scanFloat (printFloat a ++ 32 :: tail) =
      some (nearestFloat (millionths a / 10 ^ 6), 32 :: tail) := by
    have htake : (printFloat a ++ 32 :: tail).takeWhile isDigit = decimal (n / 10 ^ 6) := by
      rw [htext, List.takeWhile_append_of_pos hint]
      exact List.append_nil _
    have hdrop : (printFloat a ++ 32 :: tail).dropWhile isDigit =
        46 :: (lastDigits 6 (n % 10 ^ 6) ++ 32 :: tail) := by
      rw [htext, List.dropWhile_append_of_pos hint]
      rfl
    have hfraction : scanFraction (46 :: (lastDigits 6 (n % 10 ^ 6) ++ 32 :: tail)) =
        (lastDigits 6 (n % 10 ^ 6), 32 :: tail) := by
      show ((lastDigits 6 (n % 10 ^ 6) ++ 32 :: tail).takeWhile isDigit,
        (lastDigits 6 (n % 10 ^ 6) ++ 32 :: tail).dropWhile isDigit) = _
      rw [List.takeWhile_append_of_pos hfrac, List.dropWhile_append_of_pos hfrac]
      exact Prod.ext (List.append_nil _) rfl
    have hvalue : ((n : ℕ) : ℚ) * 10 ^ ((0 : ℤ) - (6 : ℕ)) = n / 10 ^ 6 := by
      rw [div_eq_mul_inv]
      norm_num
    simp only [scanFloat, hsign, htake, hdrop, hfraction]
    rw [if_neg hne, digitsValue_printed, length_lastDigits, hn]
    show some (nearestFloat (n * 10 ^ ((0 : ℤ) - (6 : ℕ))), 32 :: tail) = _
    rw [hvalue]
  have hwhite : (printFloat a ++ 32 :: tail).dropWhile isWhite = printFloat a ++ 32 :: tail := by
    rw [htext, dropWhile_decimal]
  unfold readCoefficient
  rw [hwhite, if_neg (by rw [htext, hc]; exact List.cons_ne_nil _ _), hscan]
  rfl

/-! ## Reading a filter -/

section

variable {data : List ℚ}

/-- What a coefficient becomes. -/
def readBack (a : ℚ) : ℚ := nearestFloat (millionths a / 10 ^ 6)

theorem dropWhile_writeCoefficients (n d : ℕ) :
    (writeCoefficients data n d).flatten.dropWhile isWhite =
      (writeCoefficients data n d).flatten := by
  cases n with
  | zero => rfl
  | succ n =>
    rw [writeCoefficients, List.flatten_cons, printFloat, List.append_assoc, List.append_assoc,
      List.append_assoc, dropWhile_decimal]

/-- The loop reads the coefficients that were written. -/
theorem times_loadCoefficient (data : List ℚ) (n d : ℕ) {s : FilterLoading} (hd : s.d = toInt d)
    (hle : d + n ≤ 2 ^ 31) (hinput : s.input = (writeCoefficients data n d).flatten) :
    ∃ s', times n loadCoefficient s = .ok s' ∧ ∀ i : ℕ, s'.mem i =
      if d ≤ i ∧ i < d + n then readBack (data.getD i 0) else s.mem i := by
  induction n generalizing d s with
  | zero =>
    refine ⟨s, rfl, fun i => ?_⟩
    rw [if_neg (by omega)]
  | succ n ih =>
    have hd' : s.d = d := by
      rw [hd]
      exact toInt_natCast (by omega)
    have hread : readCoefficient s.input =
        .ok (readBack (data.getD d 0), (writeCoefficients data n (d + 1)).flatten) := by
      have htext : (writeCoefficients data (n + 1) d).flatten =
          printFloat (data.getD d 0) ++ 32 :: (writeCoefficients data n (d + 1)).flatten := by
        rw [writeCoefficients, List.flatten_cons, List.append_assoc]
        rfl
      rw [hinput, htext, readCoefficient_printFloat, dropWhile_writeCoefficients]
      rfl
    obtain ⟨t, hstep, htd, hinput', htmem⟩ : ∃ t, loadCoefficient s = .ok t ∧
        t.d = toInt (d + 1 : ℕ) ∧ t.input = (writeCoefficients data n (d + 1)).flatten ∧
        t.mem = Function.update s.mem d (readBack (data.getD d 0)) := by
      refine ⟨⟨_, Function.update s.mem d (readBack (data.getD d 0)), toInt ((d : ℤ) + 1)⟩, ?_,
        by rw [Int.natCast_succ], rfl, rfl⟩
      unfold loadCoefficient
      rw [hread, hd']
    obtain ⟨s', hs', hmem⟩ := ih (d + 1) htd (by omega) hinput'
    refine ⟨s', ?_, fun i => ?_⟩
    · rw [times, hstep]
      exact hs'
    · rw [hmem, htmem]
      by_cases hi : i = d
      · subst hi
        rw [if_neg (by omega), if_pos (by omega), Function.update_self]
      · have hne : (i : ℤ) ≠ d := by exact_mod_cast hi
        rw [Function.update_of_ne hne]
        by_cases hin : d + 1 ≤ i ∧ i < d + 1 + n
        · rw [if_pos hin, if_pos (by omega)]
        · rw [if_neg hin, if_neg (by omega)]

theorem readOrFail_size (n d size : ℕ) :
    readOrFail 1 sizeFormat (decimal size ++ [10] ++ (writeCoefficients data n d).flatten) =
      .ok ([(size : ℤ)], (writeCoefficients data n d).flatten) := by
  have hread : fscanf sizeFormat (decimal size ++ 10 :: (writeCoefficients data n d).flatten) [] =
      ⟨1, [(size : ℤ)], (writeCoefficients data n d).flatten⟩ := by
    unfold sizeFormat
    rw [fscanf_number dropWhile_decimal (by rintro c ⟨⟩; rfl)]
    show fscanf [] ((writeCoefficients data n d).flatten.dropWhile isWhite) _ = _
    rw [dropWhile_writeCoefficients]
    rfl
  have htext : decimal size ++ [10] ++ (writeCoefficients data n d).flatten =
      decimal size ++ 10 :: (writeCoefficients data n d).flatten := by
    rw [List.append_assoc]
    rfl
  unfold readOrFail
  rw [htext, hread]
  rfl

end

theorem size_sq_lt {size : ℕ} (h : size < 2 ^ 31) : size * size < 2 ^ 62 := area_lt h h

/-- The filter that is read back. Behind the coefficients that the loops reach it is
    what `malloc` returned. -/
theorem readFilter_writeFilter (f : FloatFilter) (ok : ℕ → Bool) (malloc : ℕ → Option (ℤ → ℚ))
    (hok : ∀ i, ok i = true) {mem : ℤ → ℚ} (hmalloc : malloc (filterSize f.size) = some mem) :
    (writeFilter ok f.toFilter).1 = 0 ∧
      ∃ g, readFilter malloc (some (writeFilter ok f.toFilter).2) = .ok g ∧ g.size = f.size ∧
        ∀ i < f.size * f.size, g.data[i]? =
          some (if i < 2 ^ 31 then readBack (f.data.getD i 0) else mem i) := by
  have hsize := f.size_lt
  have harea := size_sq_lt hsize
  obtain ⟨n, hn⟩ : ∃ n, n = intLoop (toSize (f.size * f.size)) := ⟨_, rfl⟩
  have hcount : n = min (f.size * f.size) (2 ^ 31) := by
    rw [hn, ← Nat.cast_mul, toSize_natCast (by omega)]
    unfold intLoop
    split_ifs <;> omega
  have hwrite : writeFilter ok f.toFilter =
      (0, decimal f.size ++ [10] ++ (writeCoefficients f.data n 0).flatten) := by
    unfold writeFilter
    rw [if_pos (hok 0), writeOrFail_eq hok, ← hn]
    rfl
  obtain ⟨s, hs, hmem⟩ := times_loadCoefficient f.data n 0
    (s := ⟨(writeCoefficients f.data n 0).flatten, mem, 0⟩) rfl (by omega) rfl
  have hread : readFilter malloc (some (writeFilter ok f.toFilter).2) =
      .ok (filterOf f.size s.mem) := by
    have hstored : storedSize (f.size : ℤ) = f.size := storedSize_natCast (by omega)
    have hcast : toSize (f.size : ℤ) = f.size := toSize_natCast (by omega)
    have hint : toInt (f.size : ℤ) = f.size := toInt_natCast hsize
    simp only [readFilter, hwrite, readOrFail_size, List.getD_cons_zero, hstored, hcast, hint,
      hmalloc]
    rw [← hn, hs]
  refine ⟨by rw [hwrite], filterOf f.size s.mem, hread, rfl, fun i hi => ?_⟩
  show ((List.range (f.size * f.size)).map fun i : ℕ => s.mem i)[i]? = _
  rw [List.getElem?_map, List.getElem?_range hi]
  show some (s.mem i) = _
  rw [hmem, Nat.zero_add]
  by_cases hlt : i < 2 ^ 31
  · rw [if_pos (by omega), if_pos hlt]
  · rw [if_neg (by omega), if_neg hlt]

/-- What a filter stores is the float nearest to a number with six decimals. -/
theorem readBack_eq_iff (f : FloatFilter) {a : ℚ} (ha : a ∈ f.data) :
    readBack a = a ↔ ∃ k : ℕ, a = nearestFloat (k / 10 ^ 6) :=
  sixDecimals_iff (f.nonneg a ha) (f.float a ha)

/-- What is written and read back is what it was when it is as `%f` shows it and as long
    as an `int` can count. -/
theorem filter_round_trip_iff (f : FloatFilter) :
    RoundTrips f.toFilter ↔ f.size * f.size ≤ 2 ^ 31 ∧
      ∀ a ∈ f.data, ∃ k : ℕ, a = nearestFloat (k / 10 ^ 6) := by
  have hget : ∀ i < f.size * f.size, f.data[i]? = some (f.data.getD i 0) := by
    intro i hi
    rw [← f.length_data] at hi
    rw [List.getD_eq_getElem?_getD, List.getElem?_eq_getElem hi, Option.getD_some]
  constructor
  · intro h
    -- the memory behind the coefficients that are read holds something else
    obtain ⟨mem, hmem⟩ : ∃ mem : ℤ → ℚ, ∀ i, mem i = f.data.getD i.toNat 0 + 1 :=
      ⟨_, fun _ => rfl⟩
    obtain ⟨-, hread⟩ := h (fun _ => true) (fun _ => some mem) (fun _ => rfl) rfl
    obtain ⟨-, g, hg, -, hdata⟩ := readFilter_writeFilter f (fun _ => true)
      (fun _ => some mem) (fun _ => rfl) rfl
    obtain rfl : g = f.toFilter := Except.ok.inj (hg.symm.trans hread)
    have hsize : f.size * f.size ≤ 2 ^ 31 := by
      by_contra hgt
      have hlast := hdata (2 ^ 31) (by omega)
      rw [hget _ (by omega), if_neg (lt_irrefl _), hmem] at hlast
      have hsome := Option.some.inj hlast
      rw [Int.toNat_natCast] at hsome
      linarith
    refine ⟨hsize, fun a ha => ?_⟩
    obtain ⟨i, hi, rfl⟩ := List.getElem_of_mem ha
    have hlt : i < f.size * f.size := f.length_data ▸ hi
    have hi' := hdata i hlt
    rw [List.getD_eq_getElem?_getD, List.getElem?_eq_getElem hi, if_pos (by omega),
      Option.getD_some] at hi'
    exact (readBack_eq_iff f ha).mp (Option.some.inj hi').symm
  · rintro ⟨hsize, hfloat⟩ ok malloc hok hmalloc
    obtain ⟨mem, hmem⟩ := Option.isSome_iff_exists.mp hmalloc
    obtain ⟨hret, g, hg, hgsize, hdata⟩ := readFilter_writeFilter f ok malloc hok hmem
    refine ⟨hret, ?_⟩
    have hlength : g.data.length = f.data.length := by
      rw [g.length_data, f.length_data, hgsize]
    have heq : g.data = f.data := by
      refine List.ext_getElem? fun i => ?_
      by_cases hi : i < f.size * f.size
      · rw [hdata i hi, if_pos (by omega), hget i hi]
        have hmem' : f.data.getD i 0 ∈ f.data := List.mem_of_getElem? (hget i hi)
        rw [(readBack_eq_iff f hmem').mpr (hfloat _ hmem')]
      · rw [← f.length_data] at hi
        rw [List.getElem?_eq_none (by omega), List.getElem?_eq_none (by omega)]
    rw [hg, Filter.ext hgsize heq]

/-- The float next to 1/9. -/
def ninth : ℚ := 14913081 / 2 ^ 27

/-- What `random_filter` makes of nine equal numbers. -/
def ninths : FloatFilter where
  size := 3
  data := List.replicate 9 ninth
  length_data := rfl
  size_lt := by decide
  nonneg := by
    intro a ha
    obtain rfl := List.eq_of_mem_replicate ha
    norm_num [ninth]
  float := by
    intro a ha
    obtain rfl := List.eq_of_mem_replicate ha
    refine ⟨14913081, -27, by norm_num, by norm_num, ?_⟩
    norm_num [ninth]
  finite := by
    intro a ha
    obtain rfl := List.eq_of_mem_replicate ha
    norm_num [ninth]

theorem millionths_ninth : millionths ninth = 111111 := by
  have hnear := millionths_near (a := ninth) (by norm_num [ninth])
  generalize millionths ninth = n at hnear ⊢
  unfold ninth at hnear
  norm_num at hnear
  have hle : n < 111112 := by
    by_contra h
    have hn : (111112 : ℚ) ≤ n := by exact_mod_cast not_lt.mp h
    linarith [hnear.1]
  have hge : 111110 < n := by
    by_contra h
    have hn : (n : ℚ) ≤ 111110 := by exact_mod_cast not_lt.mp h
    linarith [hnear.2]
  omega

/-- Each coefficient is written as 0.111111. -/
theorem ninths_not_read_back : ¬RoundTrips ninths.toFilter := by
  intro h
  obtain ⟨-, hread⟩ := h (fun _ => true) (fun _ => some fun _ => 0) (fun _ => rfl) rfl
  obtain ⟨-, g, hg, -, hdata⟩ := readFilter_writeFilter ninths (fun _ => true)
    (fun _ => some fun _ => 0) (fun _ => rfl) rfl
  obtain rfl : g = ninths.toFilter := Except.ok.inj (hg.symm.trans hread)
  have hback : readBack ninth = ninth := (Option.some.inj (hdata 0 (by decide))).symm
  have hnear : |0.111111 - ninth| ≤ |0.111111 - 14913066 / 2 ^ 27| := by
    have hb : IsDyadic (14913066 / 2 ^ 27) :=
      ⟨14913066, -27, by norm_num, by norm_num, by norm_num⟩
    have hle := nearestFloat_le (q := (111111 : ℕ) / 10 ^ 6) (by norm_num) hb
    unfold readBack at hback
    rw [millionths_ninth] at hback
    rw [hback] at hle
    norm_num at hle ⊢
    exact hle
  rw [abs_of_neg (by norm_num [ninth]), abs_of_neg (by norm_num)] at hnear
  norm_num [ninth] at hnear

end AghOs.Pgm
