import TypedForms.Proofs.Terminals

/-! A token that was read somewhere reads alone.  What makes a text this token
and no other is that it belongs to the token's terminal and to none that goes
before it, and neither depends on what comes after the text.
-/
namespace TypedForms.Token

theorem reads_alone_iff : ReadsAlone token ↔ token.Valid ∧
    ∀ terminal : Terminal, token.text.toList ∈ terminal.language →
      token.terminal.rank ≤ terminal.rank := by
  rw [ReadsAlone, first_iff_longest_match]
  constructor
  · intro longest
    exact ⟨longest.valid, longest.preferred⟩
  · rintro ⟨valid, preferred⟩
    exact ⟨valid, List.prefix_rfl, fun _ _ _ inside => inside.length_le, preferred⟩

theorem numeral_reads_alone (numeral : IsNumeral chars) :
    ReadsAlone (.numeral (String.ofList chars)) := by
  refine reads_alone_iff.mpr ⟨Terminal.mem_numeral.mpr ?_, fun terminal _ => Nat.zero_le _⟩
  simpa [text] using numeral

/-- A token that was read in some text reads alone. -/
theorem first_reads_alone (found : first? input = some token) : ReadsAlone token := by
  have longest := first_longest_match found
  exact reads_alone_iff.mpr ⟨longest.valid, longest.preferred⟩

/-- Every token of a scanned text reads alone. -/
theorem scanned_reads_alone (member : lexeme ∈ (scanFrom offset taken input).lexemes) :
    lexeme.token.ReadsAlone := by
  induction input generalizing offset taken with
  | nil => simp [scanFrom] at member
  | cons c rest ih =>
    cases taken with
    | succ taken => exact ih member
    | zero =>
      simp only [scanFrom] at member
      split at member
      · exact ih member
      · split at member
        · cases member
        · rename_i token found
          rcases List.mem_cons.mp member with rfl | member
          · exact first_reads_alone found
          · exact ih member

/-! ## Legal names -/

/-- The whole text is read as one name, this text itself. -/
def LegalName (name : String) : Prop :=
  scan name = ⟨[⟨.name name, 0⟩], none⟩

instance (name : String) : Decidable (LegalName name) :=
  inferInstanceAs (Decidable (_ = _))

theorem legal_name_iff : LegalName word ↔ ReadsAlone (.name word) := by
  constructor
  · intro legal
    have member : ⟨.name word, 0⟩ ∈ (scanFrom 0 0 word.toList).lexemes := by
      rw [← scan, legal]
      simp
    have alone := scanned_reads_alone member
    exact alone
  · intro alone
    have found : first? ((Token.name word).text.toList ++ []) = some (.name word) := by
      rw [List.append_nil]
      exact alone
    have scanned := scan_token found 0
    rw [List.append_nil] at scanned
    exact scanned

end TypedForms.Token
