import TypedForms.Number.Printer
import TypedForms.Number.Reader
import TypedForms.Proofs.TokenSpelling

/-! Finite numbers are read back from their texts.  The exact decimal of a
magnitude has that magnitude as its nearest one, without any rounding, so the
search for a shorter decimal always ends at one that reads back; and writing a
decimal out as a numeral loses nothing.
-/
namespace TypedForms.Number

/-! ## The exact decimal of a rank -/

theorem roundHalfEven_exact (positive : 0 < denominator) (whole : Nat) :
    roundHalfEven (whole * denominator) denominator = whole := by
  simp [roundHalfEven, Nat.mul_div_cancel _ positive, positive]

private theorem pow_pos (exponent : Nat) : 0 < Nat.pow 2 exponent :=
  Nat.pow_pos (by decide)

/-- A fraction that is a whole multiple of the unit at its own binary exponent is not rounded.  The
exponent of the least unit is a variable here, so that its power is nowhere computed. -/
theorem nearestRank_exact (isLeast : least = 1074) (positive : 0 < denominator)
    (exact : numerator * Nat.pow 2 least = whole * Nat.pow 2 exponent * denominator)
    (digits : (whole * Nat.pow 2 exponent).log2 - 52 = exponent) :
    nearestRank numerator denominator = exponent * Nat.pow 2 52 + whole := by
  subst isLeast
  have quotient : numerator * Nat.pow 2 1074 / denominator = whole * Nat.pow 2 exponent := by
    rw [exact, Nat.mul_div_cancel _ positive]
  have multiple : numerator * Nat.pow 2 1074 = whole * (denominator * Nat.pow 2 exponent) := by
    rw [exact, Nat.mul_assoc, Nat.mul_comm (Nat.pow 2 exponent)]
  simp only [nearestRank, quotient, digits]
  rw [multiple, roundHalfEven_exact (Nat.mul_pos positive (pow_pos exponent))]

/-- The significand of a rank has 53 binary digits unless the rank is among the first. -/
private theorem units_digits (rank : Nat) :
    (significand rank * Nat.pow 2 (shift rank)).log2 - 52 = shift rank := by
  by_cases small : rank < Nat.pow 2 52
  · have noShift : shift rank = 0 := by simp [shift, Nat.div_eq_of_lt small]
    have below : rank.log2 < 52 ∨ rank = 0 := by
      by_cases zero : rank = 0
      · exact .inr zero
      · exact .inl ((Nat.log2_lt zero).mpr small)
    have one : Nat.pow 2 0 = 1 := rfl
    rw [noShift, significand, if_pos small, one, Nat.mul_one]
    rcases below with below | rfl
    · omega
    · simp
  · have lower : Nat.pow 2 52 ≤ significand rank := by simp [significand, small]
    have upper : significand rank < 2 * Nat.pow 2 52 := by
      have := Nat.mod_lt rank (pow_pos 52)
      simp only [significand, small, ↓reduceIte]
      omega
    have nonzero : significand rank * Nat.pow 2 (shift rank) ≠ 0 :=
      Nat.ne_of_gt (Nat.mul_pos (Nat.lt_of_lt_of_le (pow_pos 52) lower) (pow_pos _))
    have log : (significand rank * Nat.pow 2 (shift rank)).log2 = 52 + shift rank := by
      rw [Nat.log2_eq_iff nonzero]
      constructor
      · rw [Nat.pow_add]
        exact Nat.mul_le_mul_right _ lower
      · rw [Nat.pow_succ, Nat.pow_add, Nat.mul_right_comm, Nat.mul_comm _ 2]
        exact Nat.mul_lt_mul_of_pos_right upper (pow_pos _)
    rw [log]
    omega

private theorem next_multiple (positive : 0 < step) (least : step ≤ value) :
    (value / step - 1) * step + (step + value % step) = value := by
  have quotient : 1 ≤ value / step := (Nat.one_le_div_iff positive).mpr least
  have parts : step * (value / step) + value % step = value := Nat.div_add_mod value step
  have bound : step ≤ step * (value / step) := Nat.le_mul_of_pos_right step quotient
  rw [Nat.sub_mul, Nat.one_mul, Nat.mul_comm]
  omega

private theorem rank_parts (rank : Nat) :
    shift rank * Nat.pow 2 52 + significand rank = rank := by
  by_cases small : rank < Nat.pow 2 52
  · simp [shift, significand, small, Nat.div_eq_of_lt small]
  · rw [shift, significand, if_neg small]
    exact next_multiple (pow_pos 52) (Nat.le_of_not_lt small)

/-- Whichever of two exponents is the greater one, each side has that power. -/
private theorem power_exchange (exponent other : Nat) :
    Nat.pow 2 (exponent - other) * Nat.pow 2 other =
      Nat.pow 2 exponent * Nat.pow 2 (other - exponent) := by
  have sums : exponent - other + other = exponent + (other - exponent) := by omega
  have left := Nat.pow_add 2 (exponent - other) other
  have right := Nat.pow_add 2 exponent (other - exponent)
  rw [sums] at left
  exact left.symm.trans right

private theorem exact_product (digits exponent other : Nat) :
    digits * Nat.pow 2 (exponent - other) * Nat.pow 5 (other - exponent) * Nat.pow 2 other =
      digits * Nat.pow 2 exponent * Nat.pow 10 (other - exponent) := by
  have ten : Nat.pow 10 (other - exponent) =
      Nat.pow 2 (other - exponent) * Nat.pow 5 (other - exponent) := Nat.mul_pow 2 5 _
  rw [ten, Nat.mul_right_comm, Nat.mul_assoc digits, power_exchange]
  simp only [Nat.mul_assoc]

theorem exactDecimal_rank (rank : Nat) : (exactDecimal rank).rank = rank := by
  obtain ⟨least, isLeast⟩ : ∃ least, least = 1074 := ⟨1074, rfl⟩
  have positive : 0 < Nat.pow 10 (least - shift rank) := Nat.pow_pos (by decide)
  have nearest := nearestRank_exact isLeast positive
    (exact_product (significand rank) (shift rank) least) (units_digits rank)
  rw [rank_parts, isLeast] at nearest
  simpa [exactDecimal, Decimal.rank] using nearest

/-! ## The shortest decimal -/

private theorem choice_passes {passes : Decimal → Bool} (near far : Decimal)
    (last : passes rest = true) :
    passes (if passes near then near else if passes far then far else rest) = true := by
  split
  · assumption
  · split
    · assumption
    · exact last

/-- The search ends at a decimal that passes when the exact one does. -/
theorem shortestFrom_passes (passes : Decimal → Bool) (exact : Decimal)
    (last : passes exact = true) (dropped : Nat) :
    passes (shortestFrom passes exact dropped) = true := by
  induction dropped with
  | zero => exact last
  | succ dropped ih => exact choice_passes _ _ ih

private theorem zero_rank : Decimal.rank ⟨0, 0⟩ = 0 := by
  have nearest := @nearestRank_exact 1074 1 0 0 0 rfl (by decide)
    (by simp only [Nat.zero_mul]) (by simp)
  simpa [Decimal.rank] using nearest

/-- The shortest decimal of a magnitude is nearest to that magnitude. -/
theorem shortest_rank (rank : Nat) : (shortest rank).rank = rank := by
  unfold shortest
  split
  · rename_i zero
    rw [zero]
    exact zero_rank
  · have passes := shortestFrom_passes (fun decimal => decimal.rank == rank) (exactDecimal rank)
      (by simp [exactDecimal_rank]) (Nat.toDigits 10 (exactDecimal rank).digits).length
    simpa using passes

/-! ## Decimals as numerals -/

open Token (IsDigits IsUnsigned IsNumeral)

private theorem toDigits_digits (n : Nat) : IsDigits (Nat.toDigits 10 n) :=
  ⟨Nat.toDigits_ne_nil, fun _ member => Nat.isDigit_of_mem_toDigits (by decide) (by decide) member⟩

private theorem zeros_digits (count : Nat) : ∀ c ∈ List.replicate count '0', c.isDigit = true := by
  intro c member
  rw [List.eq_of_mem_replicate member]
  rfl

/-- A decimal written out is a numeral without a sign. -/
theorem decimal_text_unsigned (decimal : Decimal) : IsUnsigned decimal.text := by
  obtain ⟨nonempty, digits⟩ := toDigits_digits decimal.digits
  simp only [Decimal.text]
  split
  · refine .whole ⟨by simp [nonempty], ?_⟩
    intro c member
    rcases List.mem_append.mp member with member | member
    · exact digits c member
    · exact zeros_digits _ c member
  · split
    · rename_i somePlace fewer
      refine .fraction ⟨?_, fun c member => digits c (List.mem_of_mem_take member)⟩
        ⟨?_, fun c member => digits c (List.mem_of_mem_drop member)⟩
      · simp [nonempty]
        omega
      · simp
        omega
    · refine @IsUnsigned.fraction ['0'] _ ⟨by simp, by simp⟩ ⟨by simp [nonempty], ?_⟩
      intro c member
      rcases List.mem_append.mp member with member | member
      · exact zeros_digits _ c member
      · exact digits c member

private theorem digits_without_point {chars : List Char} (digits : ∀ c ∈ chars, c.isDigit = true) :
    ∀ c ∈ chars, (c != '.') = true := by
  intro c member
  have digit := digits c member
  rw [bne_iff_ne]
  rintro rfl
  exact absurd digit (by decide)

/-- Reading a numeral splits it at its point. -/
private theorem ofUnsigned_split (digits : ∀ c ∈ whole, c.isDigit = true)
    (fraction : List Char) (negative : Bool) :
    ofUnsigned negative (whole ++ '.' :: fraction) =
      ofDecimal negative ⟨Nat.ofDigitChars 10 (whole ++ fraction) 0, -(fraction.length : Int)⟩ := by
  have noPoint : ∀ c ∈ whole, (c != '.') = true := digits_without_point digits
  simp [ofUnsigned, List.takeWhile_append_of_pos noPoint, List.dropWhile_append_of_pos noPoint]

private theorem ofUnsigned_whole (digits : ∀ c ∈ whole, c.isDigit = true) (negative : Bool) :
    ofUnsigned negative whole = ofDecimal negative ⟨Nat.ofDigitChars 10 whole 0, 0⟩ := by
  have noPoint : ∀ c ∈ whole, (c != '.') = true := digits_without_point digits
  have taken : whole.takeWhile (· != '.') = whole := Token.takeWhile_full noPoint
  have dropped : whole.dropWhile (· != '.') = [] := by
    simpa using @List.dropWhile_append_of_pos _ _ whole [] noPoint
  simp [ofUnsigned, taken, dropped]

/-- A decimal is read back from its text, up to the zeros at its end. -/
theorem ofUnsigned_text (negative : Bool) (decimal : Decimal) :
    ofUnsigned negative decimal.text = ofDecimal negative decimal := by
  obtain ⟨_, digits⟩ := toDigits_digits decimal.digits
  simp only [Decimal.text]
  split
  · rename_i noPlaces
    have whole : ∀ c ∈ Nat.toDigits 10 decimal.digits ++
        List.replicate decimal.exponent.toNat '0', c.isDigit = true := by
      intro c member
      rcases List.mem_append.mp member with member | member
      · exact digits c member
      · exact zeros_digits _ c member
    rw [ofUnsigned_whole whole, Nat.ofDigitChars_append, Nat.ofDigitChars_ten_toDigits,
      Nat.ofDigitChars_replicate_zero]
    simp [ofDecimal, Decimal.rank, noPlaces, Nat.mul_comm]
  · have places : -((-decimal.exponent).toNat : Int) = decimal.exponent := by omega
    split
    · rename_i fewer
      rw [ofUnsigned_split fun c member => digits c (List.mem_of_mem_take member),
        List.take_append_drop, Nat.ofDigitChars_ten_toDigits, List.length_drop,
        Nat.sub_sub_self (Nat.le_of_lt fewer), places]
    · rename_i more
      have zero : ∀ c ∈ ['0'], c.isDigit = true := by simp
      have zeros : Nat.ofDigitChars 10 ('0' :: (List.replicate ((-decimal.exponent).toNat -
          (Nat.toDigits 10 decimal.digits).length) '0' ++ Nat.toDigits 10 decimal.digits)) 0 =
          decimal.digits := by
        rw [Nat.ofDigitChars_cons, Nat.ofDigitChars_append, Nat.ofDigitChars_replicate_zero]
        exact Nat.ofDigitChars_ten_toDigits
      have shape := ofUnsigned_split zero (List.replicate ((-decimal.exponent).toNat -
        (Nat.toDigits 10 decimal.digits).length) '0' ++ Nat.toDigits 10 decimal.digits) negative
      rw [List.singleton_append, List.singleton_append, zeros, List.length_append,
        List.length_replicate, Nat.sub_add_cancel (Nat.le_of_not_lt more), places] at shape
      exact shape

/-- A finite number is written as a numeral. -/
theorem text_numeral (negative : Bool) (rank : Fin magnitudes) :
    IsNumeral (Number.finite negative rank).text.toList := by
  have unsigned := decimal_text_unsigned (shortest rank.val)
  cases negative with
  | false => simpa [text, sign] using IsNumeral.positive unsigned
  | true => simpa [text, sign] using IsNumeral.negative unsigned

theorem ofRank_finite (negative : Bool) (rank : Fin magnitudes) :
    ofRank negative rank.val = .finite negative rank := by
  rw [ofRank, dif_pos rank.isLt]

private theorem ofNumeral_negative (rest : List Char) :
    ofNumeral ('-' :: rest) = ofUnsigned true rest := by
  unfold ofNumeral
  split
  · rename_i same
    obtain ⟨_, rfl⟩ := List.cons.inj same
    rfl
  · rename_i different
    exact absurd rfl (different rest)

private theorem ofNumeral_positive (noMinus : c ≠ '-') (rest : List Char) :
    ofNumeral (c :: rest) = ofUnsigned false (c :: rest) := by
  unfold ofNumeral
  split
  · rename_i same
    exact absurd (List.cons.inj same).1 noMinus
  · rfl

/-- A finite number is read back from its text. -/
theorem ofNumeral_text (negative : Bool) (rank : Fin magnitudes) :
    ofNumeral (Number.finite negative rank).text.toList = .finite negative rank := by
  have back : ∀ negative, ofUnsigned negative (shortest rank.val).text = .finite negative rank := by
    intro negative
    rw [ofUnsigned_text, ofDecimal, shortest_rank, ofRank_finite]
  have chars : (Number.finite negative rank).text.toList =
      (sign negative).toList ++ (shortest rank.val).text := by
    simp only [text, String.toList_append, String.toList_ofList]
  rw [chars]
  cases negative with
  | true => exact (ofNumeral_negative _).trans (back true)
  | false =>
    obtain ⟨c, rest, first, digit⟩ :=
      Token.unsigned_digit_first (decimal_text_unsigned (shortest rank.val))
    have noMinus : c ≠ '-' := by rintro rfl; exact absurd digit (by decide)
    have read := back false
    rw [first] at read ⊢
    exact (ofNumeral_positive noMinus rest).trans read

end TypedForms.Number
