import Mathlib.Algebra.Ring.Nat
import TypedForms.Proofs.SourceLines

/-! Points as addresses of bytes.

A byte of a text has a line, the number of newline bytes before it, and a column,
its distance from the beginning of that line.  Only the newline character has the
newline byte in its encoding, so an offset in the middle of a character counts the
same newlines as the beginning of the character.  Lines and columns lead back to
the offset, and later bytes have later points.
-/
namespace TypedForms

open Token (byteLength_append)

namespace Text

/-- The bytes of a text in UTF-8. -/
def encoded (source : String) : List UInt8 :=
  source.toUTF8.data.toList

/-- The byte that ends a line. -/
def newlineByte : UInt8 := 10

/-- The line that the bytes end in begins at `start`: right after a newline or at the very
beginning, with no newline from there on. -/
structure LineStart (bytes : List UInt8) (start : Nat) : Prop where
  inside : start ≤ bytes.length
  begins : ∀ byte ∈ (bytes.take start).getLast?, byte = newlineByte
  unbroken : newlineByte ∉ bytes.drop start

/-- The pieces are the text cut after each of its newlines. -/
structure CutAfterNewlines (chars : List Char) (pieces : List (List Char)) : Prop where
  whole : pieces.flatten = chars
  nonempty : [] ∉ pieces
  unbroken : ∀ piece ∈ pieces, '\n' ∉ piece.dropLast
  ended : ∀ piece ∈ pieces.dropLast, piece.getLast? = some '\n'

/-! ## Encoded characters -/

/-- The bytes of the characters in UTF-8. -/
def encode (chars : List Char) : List UInt8 :=
  chars.flatMap String.utf8EncodeChar

theorem encoded_eq (source : String) : encoded source = encode source.toList := by
  conv => lhs; rw [← String.ofList_toList (s := source)]
  rw [encoded, String.toUTF8_eq_toByteArray, String.toByteArray_ofList, List.utf8Encode,
    List.data_toByteArray, encode]

theorem encode_append (left right : List Char) :
    encode (left ++ right) = encode left ++ encode right :=
  List.flatMap_append

theorem encode_length (chars : List Char) : (encode chars).length = byteLength chars := by
  induction chars with
  | nil => rfl
  | cons c chars ih =>
    rw [encode, List.flatMap_cons, List.length_append, String.length_utf8EncodeChar, ← encode, ih,
      byteLength]

private theorem newline_ne_byte {code : Nat} (high : 128 ≤ code) (low : code < 256) :
    newlineByte ≠ UInt8.ofNat code := by
  intro same
  have numbers := congrArg UInt8.toNat same
  simp only [newlineByte, UInt8.toNat_ofNat', UInt8.reduceToNat] at numbers
  omega

/-- No other character has the newline byte in its encoding: the bytes of longer characters lie
above those of ASCII. -/
theorem newline_mem_char {c : Char} : newlineByte ∈ String.utf8EncodeChar c ↔ c = '\n' := by
  constructor
  · intro member
    by_contra other
    simp only [String.utf8EncodeChar] at member
    split at member
    · have numbers := congrArg UInt8.toNat (List.mem_singleton.mp member)
      simp only [newlineByte, UInt8.toNat_ofNat', UInt8.reduceToNat] at numbers
      exact other (Char.toNat_inj.mp (show c.val.toNat = 10 by omega))
    · split at member
      on_goal 2 => split at member
      all_goals
        simp (disch := omega) only [List.mem_cons, List.not_mem_nil, newline_ne_byte,
          or_self] at member
  · rintro rfl
    decide

theorem newline_mem_encode {chars : List Char} : newlineByte ∈ encode chars ↔ '\n' ∈ chars := by
  simp [encode, newline_mem_char]

theorem count_newlines (chars : List Char) :
    (encode chars).count newlineByte = chars.count '\n' := by
  induction chars with
  | nil => rfl
  | cons c chars ih =>
    rw [encode, List.flatMap_cons, List.count_append, ← encode, ih]
    by_cases newline : c = '\n'
    · have single : (String.utf8EncodeChar '\n').count newlineByte = 1 := by decide
      rw [newline, single, List.count_cons_self, Nat.add_comm]
    · rw [List.count_eq_zero.mpr (mt newline_mem_char.mp newline), List.count_cons_of_ne newline,
        Nat.zero_add]

/-- The bytes before an offset are those before the character that it lies in and a part of that
character, which has no newline in it. -/
theorem take_encode (lower : byteLength left ≤ offset)
    (upper : offset < byteLength left + c.utf8Size) (right : List Char) :
    ∃ part, (encode (left ++ c :: right)).take offset = encode left ++ part ∧
      newlineByte ∉ part := by
  refine ⟨(String.utf8EncodeChar c).take (offset - byteLength left), ?_, ?_⟩
  · have bytes : encode (c :: right) = String.utf8EncodeChar c ++ encode right := List.flatMap_cons
    have short : offset - byteLength left ≤ (String.utf8EncodeChar c).length := by
      rw [String.length_utf8EncodeChar]
      omega
    rw [encode_append, bytes, List.take_append, List.take_of_length_le (by rwa [encode_length]),
      encode_length, List.take_append_of_le_length short]
  · intro member
    obtain rfl := newline_mem_char.mp (List.mem_of_mem_take member)
    have single : Char.utf8Size '\n' = 1 := rfl
    have zero : offset - byteLength left = 0 := by omega
    rw [zero] at member
    cases member

/-- The offset at which the last line begins, when the bytes of a part of a line follow. -/
theorem LineStart.of_closed {part : List UInt8} (closed : Closed earlier)
    (unbroken : newlineByte ∉ part) : LineStart (encode earlier ++ part) (byteLength earlier) := by
  rw [← encode_length]
  refine ⟨by simp, ?_, by simpa using unbroken⟩
  intro byte last
  rw [List.take_left] at last
  rcases List.eq_nil_or_concat' earlier with rfl | ⟨others, c, rfl⟩
  · cases last
  · obtain rfl : c = '\n' := closed c (by simp)
    have single : encode ['\n'] = [newlineByte] := by decide
    rw [encode_append, single, List.getLast?_concat] at last
    exact (Option.some.inj last).symm

/-! ## Lengths of lines -/

theorem byteLength_flatten (pieces : List (List Char)) :
    byteLength pieces.flatten = (pieces.map byteLength).sum := by
  induction pieces with
  | nil => rfl
  | cons piece pieces ih =>
    rw [List.flatten_cons, byteLength_append, ih, List.map_cons, List.sum_cons]

private theorem CutAfterNewlines.cons_newline (cut : CutAfterNewlines chars pieces) :
    CutAfterNewlines ('\n' :: chars) (['\n'] :: pieces) := by
  refine ⟨by simp [cut.whole], by simp [cut.nonempty], ?_, ?_⟩
  · exact List.forall_mem_cons.mpr ⟨by simp, cut.unbroken⟩
  · cases pieces with
    | nil => simp
    | cons piece later => exact List.forall_mem_cons.mpr ⟨rfl, cut.ended⟩

private theorem CutAfterNewlines.cons_other (other : c ≠ '\n')
    (cut : CutAfterNewlines chars (piece :: later)) :
    CutAfterNewlines (c :: chars) ((c :: piece) :: later) := by
  obtain ⟨nonempty, others⟩ := not_or.mp (mt List.mem_cons.mpr cut.nonempty)
  obtain ⟨d, more, rfl⟩ := List.exists_cons_of_ne_nil (Ne.symm nonempty)
  obtain ⟨first, rest⟩ := List.forall_mem_cons.mp cut.unbroken
  refine ⟨by simp [← cut.whole], by simp [others], ?_, ?_⟩
  · refine List.forall_mem_cons.mpr ⟨?_, rest⟩
    rw [List.dropLast_cons_cons, List.mem_cons, not_or]
    exact ⟨Ne.symm other, first⟩
  · cases later with
    | nil => simp
    | cons next later =>
      obtain ⟨firstEnded, restEnded⟩ := List.forall_mem_cons.mp cut.ended
      exact List.forall_mem_cons.mpr ⟨firstEnded, restEnded⟩

theorem segments_cut (chars : List Char) : CutAfterNewlines chars (segments chars) := by
  induction chars with
  | nil => exact ⟨rfl, by simp [segments], by simp [segments], by simp [segments]⟩
  | cons c chars ih =>
    by_cases newline : c = '\n'
    · simpa [segments, newline] using ih.cons_newline
    · cases next : segments chars with
      | nil =>
        have empty : chars = [] := by rw [← flatten_segments chars, next, List.flatten_nil]
        subst empty
        refine ⟨?_, ?_, ?_, ?_⟩
        all_goals simp [segments, newline]
      | cons piece later =>
        rw [next] at ih
        rw [segments_cons newline next]
        exact ih.cons_other newline

end Text

namespace Point

open Text

/-- The first point comes before the second, by lines and then by columns. -/
def Before (first second : Point) : Prop :=
  first.line < second.line ∨ first.line = second.line ∧ first.column < second.column

variable {source : String}

/-- The line counts the newlines before the offset. -/
theorem locate_line (inside : offset < (encoded source).length) :
    (locate source offset).line = ((encoded source).take offset).count newlineByte := by
  rw [encoded_eq, encode_length] at inside
  obtain ⟨left, c, right, here, lower, upper⟩ := char_at inside
  obtain ⟨part, seen, unbroken⟩ := take_encode lower upper right
  rw [encoded_eq, here, seen, List.count_append, count_newlines, List.count_eq_zero.mpr unbroken,
    locate_within here lower upper, Nat.add_zero]

/-- The column counts the bytes since the line began. -/
theorem locate_column (inside : offset < (encoded source).length) :
    ∃ start, LineStart ((encoded source).take offset) start ∧
      (locate source offset).column = offset - start := by
  rw [encoded_eq, encode_length] at inside
  obtain ⟨left, c, right, here, lower, upper⟩ := char_at inside
  obtain ⟨part, seen, unbroken⟩ := take_encode lower upper right
  obtain ⟨earlier, whole, closed⟩ := line_cut left
  have bytes : byteLength left = byteLength earlier + byteLength (lastLine left) := by
    conv => lhs; rw [whole]
    exact byteLength_append _ _
  have line : newlineByte ∉ encode (lastLine left) ++ part := by
    simp [newline_mem_encode, lastLine_unbroken left, unbroken]
  refine ⟨byteLength earlier, ?_, ?_⟩
  · have split : encode left ++ part = encode earlier ++ (encode (lastLine left) ++ part) := by
      conv => lhs; rw [whole]
      rw [encode_append, List.append_assoc]
    rw [encoded_eq, here, seen, split]
    exact .of_closed closed line
  · rw [locate_within here lower upper]
    simp only
    omega

/-- Lines and columns lead back to the offset. -/
theorem locate_offset (inside : offset < (encoded source).length) :
    (((segments source.toList).take (locate source offset).line).map byteLength).sum +
      (locate source offset).column = offset := by
  rw [encoded_eq, encode_length] at inside
  obtain ⟨left, c, right, here, lower, upper⟩ := char_at inside
  obtain ⟨more, later, next⟩ := segments_head c right
  obtain ⟨earlier, cut, counted, joined, _⟩ := segments_at left next
  have bytes : byteLength earlier.flatten + byteLength (lastLine left) = byteLength left := by
    rw [← byteLength_append, joined]
  rw [locate_within here lower upper, here, cut, ← byteLength_flatten]
  simp only [← counted, List.take_left]
  omega

/-- Later bytes have later points: on one line the offsets differ by what the columns do. -/
theorem locate_before_locate (order : first < second) (inside : second < (encoded source).length) :
    (locate source first).Before (locate source second) := by
  have firstInside : first < (encoded source).length := Nat.lt_trans order inside
  have lines : (locate source first).line ≤ (locate source second).line := by
    rw [locate_line inside, locate_line firstInside]
    exact (List.take_prefix_take_left (Nat.le_of_lt order)).sublist.count_le _
  rcases Nat.lt_or_eq_of_le lines with less | same
  · exact .inl less
  · have firstOffset := locate_offset firstInside
    have secondOffset := locate_offset inside
    rw [same] at firstOffset
    exact .inr ⟨same, by omega⟩

/-- An offset beyond the text is located at the end of the last line, before the breaks there. -/
theorem locate_beyond (nonempty : source ≠ "") (beyond : (encoded source).length ≤ offset) :
    ∃ earlier kept breaks, segments source.toList = earlier ++ [kept ++ breaks] ∧
      (∀ c ∈ breaks, isBreak c = true) ∧ EndsPlain kept ∧
      locate source offset = ⟨earlier.length, byteLength kept⟩ := by
  rw [encoded_eq, encode_length] at beyond
  have whole := flatten_segments source.toList
  rcases List.eq_nil_or_concat' (segments source.toList) with empty | ⟨earlier, last, cut⟩
  · rw [empty, List.flatten_nil] at whole
    exact absurd (String.toList_eq_nil_iff.mp whole.symm) nonempty
  · obtain ⟨breaks, line, broken, plain⟩ := breaks_cut last
    refine ⟨earlier, withoutTrailingBreaks last, breaks, by rw [cut, ← line], broken, plain, ?_⟩
    rw [cut] at whole
    rw [locate, cut, locateIn_beyond (by rwa [whole]), Nat.zero_add]

/-- Locating an offset inside the text inverts the addressing of bytes by lines and columns, and
keeps their order.  Offsets beyond the text share the end of its last line. -/
theorem locate_inverts_addressing (source : String) :
    CutAfterNewlines source.toList (segments source.toList) ∧
    (∀ offset < (encoded source).length,
      (locate source offset).line = ((encoded source).take offset).count newlineByte ∧
      (∃ start, LineStart ((encoded source).take offset) start ∧
        (locate source offset).column = offset - start) ∧
      (((segments source.toList).take (locate source offset).line).map byteLength).sum +
        (locate source offset).column = offset ∧
      ∀ earlier < offset, (locate source earlier).Before (locate source offset)) ∧
    (∀ offset, (encoded source).length ≤ offset → source ≠ "" →
      ∃ earlier kept breaks, segments source.toList = earlier ++ [kept ++ breaks] ∧
        (∀ c ∈ breaks, isBreak c = true) ∧ EndsPlain kept ∧
        locate source offset = ⟨earlier.length, byteLength kept⟩) ∧
    ∀ offset, locate "" offset = ⟨0, 0⟩ := by
  refine ⟨segments_cut source.toList, ?_, ?_, fun _ => rfl⟩
  · intro offset inside
    exact ⟨locate_line inside, locate_column inside, locate_offset inside,
      fun earlier order => locate_before_locate order inside⟩
  · intro offset beyond nonempty
    exact locate_beyond nonempty beyond

/-- The second byte of a letter, and an offset beyond a line that ends in two characters. -/
theorem returns_and_letter_addressed :
    let source := "a\r\né\r\n"
    (encoded source = [97, 13, 10, 195, 169, 13, 10] ∧
      (locate source 4).line = [97, 13, 10, 195].count newlineByte ∧
      (∃ start, LineStart [97, 13, 10, 195] start ∧ (locate source 4).column = 4 - start) ∧
      (locate source 2).Before (locate source 4)) ∧
    ∃ earlier kept breaks, segments source.toList = earlier ++ [kept ++ breaks] ∧
      (∀ c ∈ breaks, isBreak c = true) ∧ EndsPlain kept ∧
      locate source 9 = ⟨earlier.length, byteLength kept⟩ := by
  intro source
  have bytes : encoded source = [97, 13, 10, 195, 169, 13, 10] := by decide +kernel
  obtain ⟨_, inside, beyond, _⟩ := locate_inverts_addressing source
  rw [bytes] at inside beyond
  obtain ⟨line, column, _, later⟩ := inside 4 (by decide)
  exact ⟨⟨bytes, line, column, later 2 (by decide)⟩, beyond 9 (by decide) (by decide)⟩

end Point

end TypedForms
