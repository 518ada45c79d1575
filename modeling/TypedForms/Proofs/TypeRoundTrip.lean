import TypedForms.Proofs.WrittenTypes

/-! The text of a normal type is read back as the type.  Different normal types
have different texts, and the components of a union in normal form are strictly
ascending.
-/
namespace TypedForms.Ty

/-- The text of a normal type with legal names is read as the type. -/
theorem parse_text {type : Ty} (readable : type.Readable) : parse type.text = .ok type := by
  obtain ⟨normal, legal⟩ := readable
  obtain ⟨read, parsed, same⟩ := ascription_reads_back (written_wellFormed normal legal)
  rw [written_text normal] at parsed
  rw [parse, parsed, Except.map, ofAscription_of_unplaced same, ofAscription_written normal]

/-- Whatever is read is normal and has legal names. -/
theorem parse_readable (parsed : parse source = .ok type) : type.Readable := by
  unfold parse at parsed
  cases read : Ascription.parse source with
  | error error => simp [read, Except.map] at parsed
  | ok ascription =>
    rw [read] at parsed
    obtain rfl : ofAscription ascription = type := by injection parsed
    exact ofAscription_readable (ascription_parse_well_formed read).admissible

theorem eq_of_text {left right : Ty} (leftReadable : left.Readable) (rightReadable : right.Readable)
    (same : left.text = right.text) : left = right := by
  have leftRead := parse_text leftReadable
  rw [same, parse_text rightReadable] at leftRead
  injection leftRead with equal
  exact equal.symm

/-! ## Strictly ascending unions -/

/-- The components of a union in normal form, which are different because their texts are. -/
structure StrictUnion (members : List Ty) : Prop where
  several : 2 ≤ members.length
  flat : ∀ member ∈ members, member.tag ≠ .union
  ascending : members.Pairwise fun left right => Text.precedes left.text right.text = true

/-- What strict normal form asks of a node by itself. -/
def StrictAt : Ty → Prop
  | .union members => StrictUnion members
  | _ => True

/-- Every union in the type, at any depth, is strictly ascending. -/
def Strict (type : Ty) : Prop :=
  type.All StrictAt

theorem strict_union (union : NormalUnion members)
    (readable : ∀ member ∈ members, member.Readable) : StrictUnion members := by
  refine ⟨union.several, union.flat, ?_⟩
  refine (union.distinct.and union.ascending).imp_of_mem fun leftMember rightMember => ?_
  rintro ⟨different, notAfter⟩
  rcases Text.precedes_connected _ _ with before | same | after
  · exact before
  · exact absurd (eq_of_text (readable _ leftMember) (readable _ rightMember) same) different
  · simp [notAfter] at after

/-- In a normal type with legal names the unions are strictly ascending. -/
theorem Readable.strict {type : Ty} (readable : type.Readable) : type.Strict := by
  induction type with
  | number | boolean | string | void | var => exact (all_leaf rfl).mpr trivial
  | proc params result paramsStrict resultStrict =>
    obtain ⟨paramsReadable, resultReadable⟩ := readable_proc.mp readable
    exact all_proc.mpr ⟨trivial, fun param member =>
      paramsStrict param member (paramsReadable param member), resultStrict resultReadable⟩
  | union members membersStrict =>
    obtain ⟨union, membersNormal⟩ := all_union.mp readable.normal
    have membersLegal := legal_union.mp readable.legal
    have membersReadable : ∀ member ∈ members, member.Readable :=
      fun member listed => ⟨membersNormal member listed, membersLegal member listed⟩
    exact all_union.mpr ⟨strict_union union membersReadable,
      fun member listed => membersStrict member listed (membersReadable member listed)⟩

/-! ## The round trip -/

/-- Reading inverts printing on normal types with legal names, so there printing is injective, and
printing what has been read and reading it again changes neither the type nor the text. -/
theorem type_text_round_trip :
    (∀ type : Ty, type.Normal → type.Legal → parse type.text = .ok type) ∧
    (∀ left right : Ty, left.Normal → left.Legal → right.Normal → right.Legal →
      left.text = right.text → left = right) ∧
    (∀ source type, parse source = .ok type → parse type.text = .ok type) ∧
    (∀ source text, normalTypeText source = .ok text → normalTypeText text = .ok text) := by
  have again : ∀ source type, parse source = .ok type → parse type.text = .ok type := by
    intro source type parsed
    exact parse_text (parse_readable parsed)
  refine ⟨fun type normal legal => parse_text ⟨normal, legal⟩, ?_, again, ?_⟩
  · intro left right leftNormal leftLegal rightNormal rightLegal same
    exact eq_of_text ⟨leftNormal, leftLegal⟩ ⟨rightNormal, rightLegal⟩ same
  · intro source text printed
    cases parsed : parse source with
    | error error => simp [normalTypeText, parsed] at printed
    | ok type =>
      simp only [normalTypeText, parsed] at printed
      obtain rfl : type.text = text := by injection printed
      simp [normalTypeText, again source type parsed]

/-- A union whose members are a procedure type over a union, an atomic type and a variable. -/
theorem nested_union_round_trip :
    let type : Ty := .union [.proc [.union [.var "a", .boolean], .string] .void, .number, .var "x"]
    type.Normal ∧ type.Legal ∧
      type.text = "(union ((union a boolean) * string -> void) (union number x))" ∧
      parse type.text = .ok type ∧ normalTypeText type.text = .ok type.text := by
  intro type
  have normal : type.Normal := by decide
  have legal : type.Legal := by decide
  have parsed := type_text_round_trip.1 type normal legal
  exact ⟨normal, legal, by decide, parsed,
    type_text_round_trip.2.2.2 type.text type.text (by simp [normalTypeText, parsed])⟩

end TypedForms.Ty
