import ShiftReduce.Proofs.Regex.Lexemes

/-!
# Written characters and classes

A character is cut off as one lexeme, however it is written, and so is a class whose ranges are in
order. A class with a range out of order is refused, and so is one that is not closed.
-/
namespace ShiftReduce.Regex

variable {c d : Char} {r : Char × Char} {rs : List (Char × Char)}
  {text front behind rest tail : List Char} {b : Bracket} {budget : Nat}

/-! ## Characters -/

theorem escape_of_isMeta (special : isMeta c) : escape (c :: rest) = .ok (.char c, rest) := by
  simp only [escape]
  split
  case h_22 => rw [isEscapable, special, Bool.true_or, if_pos rfl]
  -- the characters with another meaning behind a backslash have none without it
  all_goals exact absurd special (by decide)

theorem Spelling.cuts (spelled : Spelling c text) : CutsInto text [.char c] := by
  cases spelled with
  | bare plain =>
    refine .single fun tail budget _ => ?_
    unfold lexeme
    split
    all_goals first | rfl | exact absurd (by decide) plain
  | escaped special =>
    refine .single fun tail budget _ => ?_
    change (escape (c :: tail)).map _ = _
    rw [escape_of_isMeta special]
    rfl

theorem Spelling.member (spelled : Spelling c text) (rest : List Char) :
    Regex.member (text ++ rest) = .ok (.inl c, rest) := by
  cases spelled with
  | bare plain =>
    rw [List.singleton_append, Regex.member]
    rintro rfl
    exact absurd (by decide) plain
  | escaped special =>
    rw [List.cons_append, List.singleton_append, Regex.member, escape_of_isMeta special]

/-! ## Ranges -/

/-- A character with no hyphen behind it is a member by itself. -/
theorem take_single (read : member text = .ok (.inl c, d :: rest)) (apart : d ≠ '-') :
    b.take text = .ok (b.addRange c c, d :: rest) := by
  unfold Bracket.take
  rw [read]
  dsimp only
  split
  next same => cases same
  next same => exact absurd (List.cons.inj same).1 apart
  next same => exact absurd (List.cons.inj same).1 apart
  next same => exact absurd (List.cons.inj same).1 apart
  next => rfl

theorem take_range {first last : Char} (start : Spelling first front) (stop : Spelling last behind) :
    b.take (front ++ '-' :: (behind ++ rest)) =
      if first ≤ last then .ok (b.addRange first last, rest) else .error .badRange := by
  obtain ⟨h, t, written, proper⟩ := stop.head
  unfold Bracket.take
  rw [start.member]
  dsimp only
  split
  next same => cases same
  next same =>
    rw [written] at same
    cases same
    exact absurd proper (by decide)
  next same =>
    rw [written] at same
    cases same
    exact absurd proper (by decide)
  next same =>
    cases same
    rw [stop.member]
  next other => exact absurd rfl (other _)

/-- A member that is no bracket and no operation. -/
theorem bracket_take {outer : List Bracket} (proper : isMemberStart c) :
    bracket (budget + 1) b outer (c :: rest) =
      match b.take (c :: rest) with
      | .error e => .error e
      | .ok (b, rest) => bracket budget b outer rest := by
  have other {d : Char} (special : ¬ isMemberStart d) : c ≠ d := by
    rintro rfl
    exact special proper
  conv => lhs; unfold bracket
  split
  case h_1 same => cases same
  case h_7 => rfl
  -- anything else would begin with a character of its own
  all_goals
    next same => exact absurd (List.cons.inj same).1 (other (by decide))

/-- One range of a class, before another one or the end of the class. -/
theorem bracket_range (spelled : RangeSpelling r text) (apart : d ≠ '-') :
    bracket (budget + 1) b [] (text ++ d :: rest) =
      if r.1 ≤ r.2 then bracket budget (b.addRange r.1 r.2) [] (d :: rest)
      else .error .badRange := by
  have taken : b.take (text ++ d :: rest) =
      if r.1 ≤ r.2 then .ok (b.addRange r.1 r.2, d :: rest) else .error .badRange := by
    cases spelled with
    | @single c _ spelled =>
      rw [if_pos (Char.le_refl c)]
      exact take_single (spelled.member (d :: rest)) apart
    | range start stop =>
      rw [List.append_assoc, List.cons_append]
      exact take_range start stop
  obtain ⟨h, t, written, proper⟩ := spelled.head
  rw [written, List.cons_append] at taken ⊢
  rw [bracket_take proper, taken]
  by_cases ordered : r.1 ≤ r.2 <;> simp [ordered]

/-- A class is read range by range. -/
theorem bracket_ranges (spelled : RangesSpelling rs text) (ordered : ∀ r ∈ rs, r.1 ≤ r.2)
    (budget : Nat) (b : Bracket) : bracket (rs.length + budget) b [] (text ++ ']' :: tail) =
      bracket budget { b with ranges := rs.reverse ++ b.ranges } [] (']' :: tail) := by
  induction spelled generalizing b with
  | nil => simp
  | @cons r rs front behind first others ih =>
    obtain ⟨here, later⟩ := List.forall_mem_cons.mp ordered
    obtain ⟨d, rest, next, apart, -, -⟩ := others.head tail
    have step : bracket (rs.length + budget + 1) b [] (front ++ d :: rest) = _ :=
      bracket_range first apart
    rw [List.append_assoc, next, List.length_cons, Nat.add_right_comm, step, if_pos here, ← next,
      ih later]
    simp [Bracket.addRange]

/-- A range out of order is refused. -/
theorem bracket_disordered (spelled : RangesSpelling rs text) (reversed : ∃ r ∈ rs, r.2 < r.1)
    (tail : List Char) (budget : Nat) (b : Bracket) :
    ∃ e, bracket budget b [] (text ++ ']' :: tail) = .error e := by
  induction spelled generalizing budget b with
  | nil => simp at reversed
  | @cons r rs front behind first others ih =>
    obtain ⟨d, rest, next, apart, -, -⟩ := others.head tail
    cases budget with
    | zero => exact ⟨.unclosedClass, rfl⟩
    | succ budget =>
      have step : bracket (budget + 1) b [] (front ++ d :: rest) = _ := bracket_range first apart
      rw [List.append_assoc, next, step]
      split
      next here =>
        rw [← next]
        refine ih ?_ budget _
        obtain ⟨s, member, less⟩ := reversed
        rcases List.mem_cons.mp member with rfl | later
        · exact absurd here (Char.not_le.mpr less)
        · exact ⟨s, later, less⟩
      next => exact ⟨.badRange, rfl⟩

/-! ## Classes -/

/-- A class as one lexeme. Its ranges were kept last first. -/
def classLexeme (rs : List (Char × Char)) : Lexeme :=
  .set (.ranges rs.reverse) (if 1 < rs.length then 2 else 1)

theorem lexeme_bracket (opens : Bracket.opening rest = (b, tail)) : lexeme budget '[' rest =
    (bracket (budget + 1) b [] tail).map fun r => (.set r.1.charClass r.1.depth, r.2) := by
  simp only [lexeme, opens]

/-- Nothing of a class that has ranges is taken for its beginning. -/
theorem opening_ranges (spelled : RangesSpelling rs text) (inhabited : rs ≠ []) :
    Bracket.opening (text ++ ']' :: tail) = (.fresh false, text ++ ']' :: tail) := by
  obtain ⟨d, rest, front, hyphen, caret, close⟩ := spelled.head tail
  have close := close inhabited
  rw [front]
  unfold Bracket.opening
  split
  next negated text read =>
  split at read
  next same => exact absurd (List.cons.inj same).1 caret
  next =>
    cases read
    dsimp only
    rw [List.takeWhile_cons_of_neg (by simpa using hyphen),
      List.dropWhile_cons_of_neg (by simpa using hyphen), List.foldl_nil]
    split
    next same => exact absurd (List.cons.inj same).1 close
    next => rfl

theorem RangesSpelling.length_le (spelled : RangesSpelling rs text) : rs.length ≤ text.length := by
  induction spelled with
  | nil => exact Nat.le_refl 0
  | cons first others ih =>
    obtain ⟨h, t, rfl, -⟩ := first.head
    simp only [List.length_cons, List.cons_append, List.length_append]
    omega

theorem cuts_class (spelled : RangesSpelling rs text) (inhabited : rs ≠ [])
    (ordered : ∀ r ∈ rs, r.1 ≤ r.2) : CutsInto ('[' :: (text ++ [']'])) [classLexeme rs] := by
  refine .single fun tail budget enough => ?_
  rw [List.append_assoc, List.singleton_append] at enough ⊢
  have rounds : rs.length ≤ budget := by
    have shorter := spelled.length_le
    rw [List.length_append] at enough
    omega
  obtain ⟨budget, rfl⟩ := Nat.exists_eq_add_of_le rounds
  rw [lexeme_bracket (opening_ranges spelled inhabited), Nat.add_assoc,
    bracket_ranges spelled ordered]
  simp only [bracket, Except.map, Bracket.closed, Bracket.body, Bracket.members, Bracket.fresh,
    classLexeme, List.append_nil, List.length_reverse, List.foldl_nil, List.length_nil, Nat.add_zero,
    Bool.false_eq_true, if_false]
  split <;> rfl

theorem uncuttable_disordered (spelled : RangesSpelling rs text) (reversed : ∃ r ∈ rs, r.2 < r.1) :
    Uncuttable ('[' :: (text ++ ']' :: tail)) := by
  have inhabited : rs ≠ [] := by
    rintro rfl
    simp at reversed
  refine .of_lexeme fun budget _ => ?_
  obtain ⟨e, failed⟩ := bracket_disordered spelled reversed tail (budget + 1) (.fresh false)
  exact ⟨e, by rw [lexeme_bracket (opening_ranges spelled inhabited), failed]; rfl⟩

/-- A class is not closed by characters that stand for themselves in it. -/
theorem bracket_inert (inert : ∀ c ∈ tail, c ∉ "\\^[]&-~".toList) (budget : Nat) (b : Bracket) :
    ∃ e, bracket budget b [] tail = .error e := by
  induction budget generalizing b tail with
  | zero => exact ⟨.unclosedClass, rfl⟩
  | succ budget ih =>
    cases tail with
    | nil => exact ⟨.unclosedClass, rfl⟩
    | cons c rest =>
      obtain ⟨first, others⟩ := List.forall_mem_cons.mp inert
      have start : isMemberStart c :=
      decide_eq_true fun listed => first (List.mem_cons_of_mem _ listed)
      have read : member (c :: rest) = .ok (.inl c, rest) := by
        rw [member]
        rintro rfl
        exact first (List.mem_cons_self ..)
      rw [bracket_take start]
      cases rest with
      | nil => exact ⟨.unclosedClass, by rw [Bracket.take, read]⟩
      | cons d rest =>
        have hyphen : d ≠ '-' := by
          rintro rfl
          exact others '-' (List.mem_cons_self ..) (by decide)
        rw [take_single read hyphen]
        exact ih others _

theorem uncuttable_unclosed (inert : ∀ c ∈ tail, c ∉ "\\^[]&-~".toList) :
    Uncuttable ('[' :: ']' :: tail) := by
  have opens : Bracket.opening (']' :: tail) = ((Bracket.fresh false).addRange ']' ']', tail) := rfl
  refine .of_lexeme fun budget _ => ?_
  obtain ⟨e, failed⟩ := bracket_inert inert (budget + 1) ((Bracket.fresh false).addRange ']' ']')
  exact ⟨e, by rw [lexeme_bracket opens, failed]; rfl⟩

end ShiftReduce.Regex
