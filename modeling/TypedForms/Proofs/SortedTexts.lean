import TypedForms.Text.Order

/-! The order of texts is a strict linear order, and sorting by texts puts a
list in ascending order without changing what is in it.  A list that is in
ascending order stays as it is.
-/
namespace TypedForms.Text

private theorem precedes_iff : precedes left right = true ↔
    List.Lex (fun c d => c.toNat < d.toNat) left.toList right.toList := by
  rw [precedes, List.lex_eq_true_iff_lex]
  simp only [decide_eq_true_eq]

theorem precedes_irrefl (text : String) : precedes text text = false := by
  apply Bool.eq_false_iff.mpr
  intro before
  exact List.lex_irrefl (fun c => Nat.lt_irrefl c.toNat) _ (precedes_iff.mp before)

theorem precedes_trans (first : precedes left middle = true)
    (second : precedes middle right = true) : precedes left right = true :=
  precedes_iff.mpr
    (List.lex_trans (fun c d => Nat.lt_trans c d) (precedes_iff.mp first) (precedes_iff.mp second))

private theorem lex_connected (left right : List Char) :
    List.Lex (fun c d => c.toNat < d.toNat) left right ∨ left = right ∨
      List.Lex (fun c d => c.toNat < d.toNat) right left := by
  induction left generalizing right with
  | nil =>
    cases right with
    | nil => exact .inr (.inl rfl)
    | cons d right => exact .inl .nil
  | cons c left ih =>
    cases right with
    | nil => exact .inr (.inr .nil)
    | cons d right =>
      rcases Nat.lt_trichotomy c.toNat d.toNat with less | same | greater
      · exact .inl (.rel less)
      · obtain rfl : c = d := Char.toNat_inj.mp same
        rcases ih right with before | rfl | after
        · exact .inl (.cons before)
        · exact .inr (.inl rfl)
        · exact .inr (.inr (.cons after))
      · exact .inr (.inr (.rel greater))

/-- Of two different texts one precedes the other. -/
theorem precedes_connected (left right : String) :
    precedes left right = true ∨ left = right ∨ precedes right left = true := by
  simp only [precedes_iff, ← String.toList_inj]
  exact lex_connected left.toList right.toList

/-- Neither of two texts precedes the other only when they are equal. -/
theorem eq_of_not_precedes (left right : String) (notBefore : precedes left right = false)
    (notAfter : precedes right left = false) : left = right := by
  rcases precedes_connected left right with before | same | after
  · simp [notBefore] at before
  · exact same
  · simp [notAfter] at after

private theorem not_precedes_trans (first : precedes middle left = false)
    (second : precedes right middle = false) : precedes right left = false := by
  apply Bool.eq_false_iff.mpr
  intro before
  rcases precedes_connected left middle with less | rfl | greater
  · simp [precedes_trans before less] at second
  · simp [before] at second
  · simp [greater] at first

theorem precedes_asymm (before : precedes left right = true) : precedes right left = false := by
  apply Bool.eq_false_iff.mpr
  intro after
  simpa [precedes_irrefl] using precedes_trans before after

/-! ## Ascending lists -/

variable {key : α → String}

/-- No item comes after one whose text it precedes. -/
def Ascending (key : α → String) (items : List α) : Prop :=
  items.Pairwise fun left right => precedes (key right) (key left) = false

instance (items : List α) : Decidable (Ascending key items) :=
  inferInstanceAs (Decidable (List.Pairwise _ _))

theorem insertBy_perm (item : α) (items : List α) :
    (insertBy key item items).Perm (item :: items) := by
  induction items with
  | nil => exact .refl _
  | cons head rest ih =>
    simp only [insertBy]
    split
    · exact (ih.cons head).trans (.swap item head rest)
    · exact .refl _

theorem sortBy_perm (items : List α) : (sortBy key items).Perm items := by
  induction items with
  | nil => exact .refl _
  | cons item items ih => exact (insertBy_perm item (sortBy key items)).trans (ih.cons item)

theorem insertBy_ascending (item : α) {items : List α} (ascending : Ascending key items) :
    Ascending key (insertBy key item items) := by
  induction items with
  | nil => exact List.pairwise_singleton _ _
  | cons head rest ih =>
    obtain ⟨headLeast, restAscending⟩ := List.pairwise_cons.mp ascending
    simp only [insertBy]
    split
    · rename_i before
      refine List.pairwise_cons.mpr ⟨fun other member => ?_, ih restAscending⟩
      rcases List.mem_cons.mp ((insertBy_perm item rest).mem_iff.mp member) with rfl | member
      · exact precedes_asymm before
      · exact headLeast other member
    · rename_i notBefore
      have least := Bool.eq_false_iff.mpr notBefore
      refine List.pairwise_cons.mpr ⟨fun other member => ?_, ascending⟩
      rcases List.mem_cons.mp member with rfl | member
      · exact least
      · exact not_precedes_trans least (headLeast other member)

/-- A sorted list is in ascending order. -/
theorem sortBy_ascending (items : List α) : Ascending key (sortBy key items) := by
  induction items with
  | nil => exact .nil
  | cons item items ih => exact insertBy_ascending item ih

/-- Sorting changes nothing in a list that is in ascending order. -/
theorem sortBy_of_ascending {items : List α} (ascending : Ascending key items) :
    sortBy key items = items := by
  induction items with
  | nil => rfl
  | cons item items ih =>
    obtain ⟨least, restAscending⟩ := List.pairwise_cons.mp ascending
    have sorted : sortBy key items = items := ih restAscending
    rw [sortBy, List.foldr_cons, ← sortBy, sorted]
    cases items with
    | nil => rfl
    | cons head rest => simp [insertBy, least head (by simp)]

/-- Items with different texts have one ascending order. -/
theorem ascending_unique {left right : List α}
    (different : ∀ item ∈ left, ∀ other ∈ right, key item = key other → item = other)
    (leftAscending : Ascending key left) (rightAscending : Ascending key right)
    (perm : left.Perm right) : left = right := by
  refine perm.eq_of_pairwise (fun item other itemMember otherMember notAfter notBefore => ?_)
    leftAscending rightAscending
  exact different item itemMember other otherMember (eq_of_not_precedes _ _ notBefore notAfter)

end TypedForms.Text
