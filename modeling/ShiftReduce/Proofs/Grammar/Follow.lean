import ShiftReduce.Proofs.Grammar.Lookahead

/-!
# FOLLOW sets settle

A round of FOLLOW only lets more terminals into the rows, and there are finitely many. So the rounds
come to an end.
-/
namespace ShiftReduce.Begins

variable {b : Begins} {g : Grammar} {rows others more : List SymbolSet} {s t x : Symbol}

/-- The row of a symbol. -/
def rowOf (rows : List SymbolSet) (s : Symbol) : SymbolSet := rows[s.index]?.getD ∅

/-- Every row of `others` has what that of `rows` has. -/
structure RowsBelow (rows others : List SymbolSet) : Prop where
  length : rows.length = others.length
  row : ∀ s x, x ∈ rowOf rows s → x ∈ rowOf others s

theorem RowsBelow.refl (rows : List SymbolSet) : RowsBelow rows rows := ⟨rfl, fun _ _ => id⟩

theorem RowsBelow.trans (first : RowsBelow rows others) (second : RowsBelow others more) :
    RowsBelow rows more :=
  ⟨first.length.trans second.length, fun s x known => second.row s x (first.row s x known)⟩

theorem RowsBelow.antisymm (first : RowsBelow rows others) (second : RowsBelow others rows) :
    rows = others := by
  apply List.ext_getElem first.length
  intro i bound bound'
  apply OrderedSet.ext
  intro x
  have forth := first.row ⟨i⟩ x
  have back := second.row ⟨i⟩ x
  simp only [rowOf, List.getElem?_eq_getElem bound, List.getElem?_eq_getElem bound',
    Option.getD_some] at forth back
  exact ⟨forth, back⟩

theorem mem_rowOf : x ∈ rowOf rows s ↔ ∃ set, rows[s.index]? = some set ∧ x ∈ set := by
  unfold rowOf
  cases rows[s.index]? <;> simp

/-! ## What a round adds -/

/-- One symbol of a right-hand side, with what can follow it let into its row. -/
def spreadOne (b : Begins) (g : Grammar) (lhs s : Symbol) (rest : List Symbol)
    (rows : List SymbolSet) : List SymbolSet :=
  if g.isNonterminal s then
    rows.modify s.index fun row =>
      row ∪ b.beginnings rest none ∪ if b.allNullable rest then rowOf rows lhs else ∅
  else rows

theorem spread_cons (b : Begins) (g : Grammar) (lhs s : Symbol) (rest : List Symbol)
    (rows : List SymbolSet) : b.spread g lhs (s :: rest) rows =
      b.spread g lhs rest (b.spreadOne g lhs s rest rows) := rfl

/-- A symbol is followed by what begins the rest behind it, and by what follows the whole if the
rest can vanish. -/
theorem mem_rowOf_spreadOne {lhs : Symbol} {rest : List Symbol} :
    x ∈ rowOf (b.spreadOne g lhs s rest rows) t ↔ x ∈ rowOf rows t ∨
      (g.isNonterminal s ∧ s.index = t.index ∧ t.index < rows.length ∧
        (x ∈ b.beginnings rest none ∨ b.allNullable rest ∧ x ∈ rowOf rows lhs)) := by
  unfold spreadOne
  by_cases nonterminal : g.isNonterminal s
  · simp only [rowOf, nonterminal, if_true, true_and, List.getElem?_modify]
    by_cases bound : t.index < rows.length
    · rw [List.getElem?_eq_getElem bound]
      by_cases here : s.index = t.index
      · by_cases vanishes : b.allNullable rest <;> simp [here, bound, vanishes, or_assoc]
      · simp [here]
    · simp [bound]
  · simp [nonterminal]

theorem below_spreadOne (b : Begins) (g : Grammar) (lhs s : Symbol) (rest : List Symbol)
    (rows : List SymbolSet) : RowsBelow rows (b.spreadOne g lhs s rest rows) where
  length := by
    unfold spreadOne
    split <;> simp
  row t x known := mem_rowOf_spreadOne.mpr (Or.inl known)

theorem below_spread (b : Begins) (g : Grammar) (lhs : Symbol) (rhs : List Symbol)
    (rows : List SymbolSet) : RowsBelow rows (b.spread g lhs rhs rows) := by
  induction rhs generalizing rows with
  | nil => exact .refl rows
  | cons s rest ih =>
    rw [spread_cons]
    exact (below_spreadOne b g lhs s rest rows).trans (ih _)

theorem below_followPass (b : Begins) (g : Grammar) (rows : List SymbolSet) :
    RowsBelow rows (b.followPass g rows) := by
  unfold followPass
  induction g.productions generalizing rows with
  | nil => exact .refl rows
  | cons p ps ih => exact (below_spread b g p.lhs p.rhs rows).trans (ih _)

/-! ## Counting followers -/

/-- A row for every symbol, and nothing but terminals in it. -/
structure RowsSized (rows : List SymbolSet) (g : Grammar) : Prop where
  length : rows.length = g.numSymbols
  members : ∀ s x, x ∈ rowOf rows s → g.isTerminal x

theorem RowsSized.followPass (sized : RowsSized rows g) (begins : b.Sized g) :
    RowsSized (b.followPass g rows) g := by
  have one {rows : List SymbolSet} (sized : RowsSized rows g) (lhs s : Symbol)
      (rest : List Symbol) : RowsSized (b.spreadOne g lhs s rest rows) g := by
    refine ⟨(below_spreadOne b g lhs s rest rows).length.symm.trans sized.length, ?_⟩
    intro t x member
    rcases mem_rowOf_spreadOne.mp member with old | ⟨-, -, -, first | ⟨-, inherited⟩⟩
    · exact sized.members t x old
    · exact (terminal_of_beginnings begins.members first).resolve_right (by simp)
    · exact sized.members lhs x inherited
  have all {rows : List SymbolSet} (sized : RowsSized rows g) (lhs : Symbol)
      (rhs : List Symbol) : RowsSized (b.spread g lhs rhs rows) g := by
    induction rhs generalizing rows with
    | nil => exact sized
    | cons s rest ih => exact ih (one sized lhs s rest)
  unfold Begins.followPass
  induction g.productions generalizing rows with
  | nil => exact sized
  | cons p ps ih => exact ih (all sized p.lhs p.rhs)

/-- The followers listed, by the numbers of the symbols. -/
def followers (rows : List SymbolSet) (n : Nat) : Finset (Fin n × Fin n) :=
  Finset.univ.filter fun (s, x) => (rowOf rows ⟨s⟩).contains ⟨x⟩

theorem card_followers_le (rows : List SymbolSet) (n : Nat) : (followers rows n).card ≤ n * n := by
  have bound := (followers rows n).card_le_univ
  simpa using bound

theorem card_followers_lt (below : RowsBelow rows others) (sized : RowsSized others g)
    (ne : rows ≠ others) :
    (followers rows g.numSymbols).card < (followers others g.numSymbols).card := by
  have held (rows : List SymbolSet) (s x : Fin g.numSymbols) :
      (s, x) ∈ followers rows g.numSymbols ↔ (⟨x⟩ : Symbol) ∈ rowOf rows ⟨s⟩ := by
    simp [followers]
  refine Finset.card_lt_card ⟨?_, fun subset => ne ?_⟩
  · rintro ⟨s, x⟩ member
    exact (held others s x).mpr (below.row _ _ ((held rows s x).mp member))
  -- otherwise both list the same followers, of symbols of the grammar and among them
  refine below.antisymm ⟨below.length.symm, fun s x known => ?_⟩
  have inX : x.index < g.numSymbols := Grammar.index_lt_of_isTerminal (sized.members s x known)
  have inS : s.index < g.numSymbols := by
    rw [← sized.length]
    by_contra outside
    rw [rowOf, List.getElem?_eq_none (by omega)] at known
    exact absurd known (OrderedSet.not_mem_empty x)
  exact (held rows ⟨s.index, inS⟩ ⟨x.index, inX⟩).mp
    (subset ((held others ⟨s.index, inS⟩ ⟨x.index, inX⟩).mpr known))

/-! ## The loop -/

theorem stabiliseFollow_of_settles {n budget : Nat} (settles : Settles (b.followPass g) rows n others)
    (enough : n ≤ budget) : b.stabiliseFollow g budget rows = others := by
  induction settles generalizing budget with
  | idle same =>
    cases budget with
    | zero => rfl
    | succ budget => rw [stabiliseFollow, if_pos same]
  | busy changed _ ih =>
    cases budget with
    | zero => omega
    | succ budget =>
      rw [stabiliseFollow, if_neg changed]
      exact ih (by omega)

theorem rowOf_initialFollow : x ∈ rowOf (Analysis.initialFollow g) s ↔
    g.startSymbol? = some s ∧ s.index < g.numSymbols ∧ x = .endOfInput := by
  unfold Analysis.initialFollow rowOf Grammar.symbols
  rw [List.getElem?_map, List.getElem?_map]
  by_cases bound : s.index < g.numSymbols
  · rw [List.getElem?_range bound]
    dsimp only [Option.map_some, Option.getD_some]
    split <;> simp_all
  · rw [List.getElem?_eq_none (by simpa using bound)]
    simp [bound]

theorem initialFollow_sized (wf : g.WellFormed) : RowsSized (Analysis.initialFollow g) g where
  length := by simp [Analysis.initialFollow, Grammar.symbols]
  members s x member := by
    obtain ⟨-, -, rfl⟩ := rowOf_initialFollow.mp member
    exact wf.isTerminal_endOfInput

/-- The FOLLOW sets of an analysis are what the rounds settle on. -/
theorem settles_follow (wf : g.WellFormed) : ∃ n, Settles (g.analysis.followPass g)
    (Analysis.initialFollow g) n g.analysis.follow := by
  have sized := analysis_sized g
  obtain ⟨n, rows, settles, count⟩ := exists_settles (motive := fun rows => RowsSized rows g)
    (fun rows => (followers rows g.numSymbols).card) (fun rows inside => inside.followPass sized)
    (fun rows inside busy => card_followers_lt (below_followPass g.analysis.toBegins g rows)
      (inside.followPass sized) (Ne.symm busy))
    (fun rows _ => card_followers_le rows g.numSymbols) (initialFollow_sized wf)
  have enough : n ≤ Analysis.budget g := by
    have split := Nat.mul_add_one g.numSymbols g.numSymbols
    rw [Analysis.budget]
    omega
  have result : g.analysis.follow = rows := stabiliseFollow_of_settles settles enough
  exact ⟨n, result ▸ settles⟩

theorem analysis_followSized (wf : g.WellFormed) : RowsSized g.analysis.follow g := by
  obtain ⟨n, settles⟩ := settles_follow wf
  exact settles.keeps (initialFollow_sized wf) fun rows (inside : RowsSized rows g) =>
    inside.followPass (analysis_sized g)

/-- The end of the input follows the start symbol. -/
theorem endOfInput_mem_follow (wf : g.WellFormed) (start : g.startSymbol? = some s) :
    .endOfInput ∈ rowOf g.analysis.follow s := by
  obtain ⟨n, settles⟩ := settles_follow wf
  have below : RowsBelow (Analysis.initialFollow g) g.analysis.follow :=
    settles.keeps (.refl _) fun rows (below : RowsBelow _ rows) =>
      below.trans (below_followPass _ g rows)
  obtain ⟨name, -, found⟩ := Option.bind_eq_some_iff.mp start
  exact below.row s _ (rowOf_initialFollow.mpr
    ⟨start, (wf.symbol?_iff.mp found).index_lt, rfl⟩)

end ShiftReduce.Begins
