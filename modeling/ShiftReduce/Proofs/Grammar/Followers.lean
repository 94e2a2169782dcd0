import ShiftReduce.Proofs.Grammar.Exactness

/-!
# FOLLOW sets are exact

What a row has is borne out by a form: the terminal stands right behind the symbol in a form that
some nonterminal derives, or it is the end of the input and a form of the start symbol ends with the
symbol. Conversely the settled rows know every neighbour that rewriting can make, because it comes
from inside a right-hand side or from around the symbol that was replaced.
-/
namespace ShiftReduce

namespace Grammar

variable {g : Grammar} {α β γ : List Symbol} {s c : Symbol}

/-- In a form that some nonterminal derives, `c` stands right behind `s`. -/
def Adjoins (g : Grammar) (s c : Symbol) : Prop :=
  ∃ t α β, g.isNonterminal t ∧ g.Derives [t] (α ++ s :: c :: β)

/-- A form that the start symbol derives ends with `s`. -/
def Closes (g : Grammar) (s : Symbol) : Prop :=
  ∃ t α, g.startSymbol? = some t ∧ g.Derives [t] (α ++ [s])

/-- A form bears out that `c` comes behind `s`, or that the input may end there. -/
def Follows (g : Grammar) (s c : Symbol) : Prop := g.Adjoins s c ∨ c = .endOfInput ∧ g.Closes s

theorem Derives.inside (derives : g.Derives β γ) (α δ : List Symbol) :
    g.Derives (α ++ (β ++ δ)) (α ++ (γ ++ δ)) :=
  (derives.append_right δ).append_left α

/-- Whatever follows a left-hand side follows the last symbol of its right-hand side, if what is
behind that symbol vanishes. -/
theorem Follows.last {p : Production} (follows : g.Follows p.lhs c) (member : p ∈ g.productions)
    (rhs : p.rhs = α ++ s :: β) (vanishes : g.Derives β []) : g.Follows s c := by
  have opened : g.Derives [p.lhs] (α ++ [s]) := by
    have whole := derives_of_mem member
    rw [rhs] at whole
    exact whole.trans ((vanishes.append_left [s]).append_left α)
  rcases follows with ⟨t, μ, ν, nonterminal, derives⟩ | ⟨ending, t, μ, start, derives⟩
  · have whole : g.Derives [t] _ := derives.trans (opened.inside μ (c :: ν))
    exact Or.inl ⟨t, μ ++ α, ν, nonterminal, by simpa using whole⟩
  · have whole : g.Derives [t] _ := derives.trans (opened.append_left μ)
    exact Or.inr ⟨ending, t, μ ++ α, start, by simpa using whole⟩

end Grammar

namespace Begins

variable {b : Begins} {g : Grammar} {rows : List SymbolSet} {α β : List Symbol} {s c : Symbol}

/-! ## What is in a row is borne out -/

/-- Everything in the rows is borne out by a form. -/
def RowsSound (rows : List SymbolSet) (g : Grammar) : Prop :=
  ∀ s c, c ∈ rowOf rows s → g.Follows s c

theorem RowsSound.spreadOne (known : RowsSound rows g) (sound : b.Sound g) (wf : g.WellFormed)
    {p : Production} (member : p ∈ g.productions) (rhs : p.rhs = α ++ s :: β) :
    RowsSound (b.spreadOne g p.lhs s β rows) g := by
  intro t c inside
  rcases mem_rowOf_spreadOne.mp inside with old | ⟨-, index, -, first | ⟨gone, inherited⟩⟩
  · exact known t c old
  all_goals
    obtain rfl : s = t := by cases s; cases t; exact congrArg Symbol.mk index
  · rcases sound.beginnings first with ⟨δ, derives⟩ | ⟨-, last⟩
    · have whole := Grammar.derives_of_mem member
      rw [rhs] at whole
      exact Or.inl ⟨p.lhs, α, δ, wf.isNonterminal_lhs member,
        whole.trans ((derives.append_left [s]).append_left α)⟩
    · cases last
  · exact (known p.lhs c inherited).last member rhs (sound.all gone)

theorem RowsSound.spread (known : RowsSound rows g) (sound : b.Sound g) (wf : g.WellFormed)
    {p : Production} (member : p ∈ g.productions) (rhs : p.rhs = α ++ β) :
    RowsSound (b.spread g p.lhs β rows) g := by
  induction β generalizing α rows with
  | nil => exact known
  | cons s β ih => exact ih (known.spreadOne sound wf member rhs) (α := α ++ [s]) (by simp [rhs])

theorem RowsSound.followPass (known : RowsSound rows g) (sound : b.Sound g) (wf : g.WellFormed) :
    RowsSound (b.followPass g rows) g := by
  have each (ps : List Production) (listed : ps ⊆ g.productions) (rows : List SymbolSet)
      (known : RowsSound rows g) :
      RowsSound (ps.foldl (fun rows p => b.spread g p.lhs p.rhs rows) rows) g := by
    induction ps generalizing rows with
    | nil => exact known
    | cons p ps ih =>
      obtain ⟨member, later⟩ := List.cons_subset.mp listed
      exact ih later _ (known.spread sound wf member (α := []) rfl)
  exact each g.productions (List.Subset.refl _) rows known

theorem rowsSound_initialFollow (g : Grammar) : RowsSound (Analysis.initialFollow g) g := by
  intro s c member
  obtain ⟨start, -, ending⟩ := rowOf_initialFollow.mp member
  exact Or.inr ⟨ending, s, [], start, .refl⟩

/-! ## What a form shows is in a row -/

theorem spreadOne_of_spread {lhs : Symbol} (idle : b.spread g lhs (α ++ s :: β) rows = rows) :
    b.spreadOne g lhs s β rows = rows := by
  -- the symbols behind the first one only add to what it leaves
  have first {s : Symbol} {β : List Symbol} (idle : b.spread g lhs (s :: β) rows = rows) :
      b.spreadOne g lhs s β rows = rows := by
    have later := below_spread b g lhs β (b.spreadOne g lhs s β rows)
    rw [← spread_cons, idle] at later
    exact later.antisymm (below_spreadOne b g lhs s β rows)
  induction α with
  | nil => exact first idle
  | cons x α ih =>
    rw [List.cons_append] at idle
    rw [spread_cons, first idle] at idle
    exact ih idle

/-- Rows that a round leaves as they are have all that a right-hand side asks for. -/
theorem mem_rowOf_of_idle (idle : b.followPass g rows = rows) {p : Production}
    (member : p ∈ g.productions) (rhs : p.rhs = α ++ s :: β) (nonterminal : g.isNonterminal s)
    (known : s.index < rows.length)
    (asked : c ∈ b.beginnings β none ∨ b.allNullable β ∧ c ∈ rowOf rows p.lhs) :
    c ∈ rowOf rows s := by
  have still : b.spread g p.lhs p.rhs rows = rows :=
    idle_of_foldl RowsBelow.refl RowsBelow.trans RowsBelow.antisymm
      (fun rows (p : Production) => below_spread b g p.lhs p.rhs rows) idle member
  rw [rhs] at still
  rw [← spreadOne_of_spread still]
  exact mem_rowOf_spreadOne.mpr (Or.inr ⟨nonterminal, rfl, known, asked⟩)

/-- The row of every nonterminal in a word has what can begin the rest behind it. -/
def Covers (b : Begins) (g : Grammar) (rows : List SymbolSet) (trailing : Option Symbol)
    (γ : List Symbol) : Prop :=
  ∀ α s β c, γ = α ++ s :: β → g.isNonterminal s → c ∈ b.beginnings β trailing → c ∈ rowOf rows s

variable {trailing : Option Symbol} {γ δ : List Symbol}

theorem Closed.beginnings_of_rewrites_trailing (closed : b.Closed g) (step : g.Rewrites α β)
    (begins : c ∈ b.beginnings β trailing) : c ∈ b.beginnings α trailing := by
  rw [mem_beginnings_trailing] at begins ⊢
  exact begins.imp (closed.beginnings_of_rewrites step)
    (And.imp_left (closed.allNullable_of_rewrites step))

/-- Rewriting makes no neighbours that settled rows do not know. -/
theorem Covers.rewrites (covers : b.Covers g rows trailing γ) (closed : b.Closed g)
    (wf : g.WellFormed) (idle : b.followPass g rows = rows) (sized : RowsSized rows g)
    (step : g.Rewrites γ δ) : b.Covers g rows trailing δ := by
  rintro α s β c rfl nonterminal begins
  rcases step.split with ⟨rest, rfl, behind⟩ | ⟨rest, rfl, -⟩ |
    ⟨p, member, before, front, back, after, rhs, rfl, rfl, rfl⟩
  · exact covers α s rest c rfl nonterminal (closed.beginnings_of_rewrites_trailing behind begins)
  · exact covers rest s β c rfl nonterminal begins
  · have known : s.index < rows.length :=
      sized.length ▸ Grammar.index_lt_of_isNonterminal nonterminal
    apply mem_rowOf_of_idle idle member rhs nonterminal known
    -- behind the right-hand side comes what was behind the left-hand side
    refine (mem_beginnings_append.mp begins).imp_right fun ⟨gone, later⟩ => ⟨gone, ?_⟩
    exact covers before p.lhs after c rfl (wf.isNonterminal_lhs member) later

theorem Covers.derives (covers : b.Covers g rows trailing γ) (closed : b.Closed g)
    (wf : g.WellFormed) (idle : b.followPass g rows = rows) (sized : RowsSized rows g)
    (derives : g.Derives γ δ) : b.Covers g rows trailing δ := by
  induction derives with
  | refl => exact covers
  | tail _ step ih => exact ih.rewrites closed wf idle sized step

/-- A symbol alone is followed by nothing but what trails. -/
theorem covers_singleton {t : Symbol} (row : ∀ c ∈ trailing, c ∈ rowOf rows t) :
    b.Covers g rows trailing [t] := by
  intro α s β c word _ begins
  obtain ⟨rfl, rfl, rfl⟩ := Grammar.split_singleton word
  exact row c (mem_beginnings_nil.mp begins)

/-- What forms bear out is in rows that a round leaves as they are, if the row of the start symbol
has the end of the input. -/
theorem mem_rowOf_of_follows (closed : b.Closed g) (wf : g.WellFormed)
    (idle : b.followPass g rows = rows) (sized : RowsSized rows g)
    (start : ∀ t, g.startSymbol? = some t → .endOfInput ∈ rowOf rows t)
    (nonterminal : g.isNonterminal s) (terminal : g.isTerminal c) (follows : g.Follows s c) :
    c ∈ rowOf rows s := by
  rcases follows with ⟨t, α, β, -, derives⟩ | ⟨rfl, t, α, chosen, derives⟩
  · have covers : b.Covers g rows none [t] := covers_singleton (by simp)
    exact covers.derives closed wf idle sized derives α s (c :: β) c rfl nonterminal
      (mem_beginnings_cons.mpr (Or.inl (closed.terminal c terminal)))
  · have covers : b.Covers g rows (some .endOfInput) [t] :=
      covers_singleton (by simpa using start t chosen)
    exact covers.derives closed wf idle sized derives α s [] _ rfl nonterminal
      (mem_beginnings_nil.mpr rfl)

end Begins

variable {g : Grammar}

/-- Exactness: computing the FOLLOW sets comes to an end, and the set of a nonterminal has exactly
the terminals that stand right behind it in a form that some nonterminal derives, and the end of the
input if some form of the start symbol ends with it. -/
theorem Grammar.Built.follow_exact (built : g.Built) :
    (∃ n, Settles (g.analysis.followPass g) (Analysis.initialFollow g) n g.analysis.follow) ∧
    ∀ s, g.isNonterminal s → ∃ set, g.analysis.follow? s = some set ∧ ∀ c, c ∈ set ↔
      (g.isTerminal c ∧ ∃ t α β, g.isNonterminal t ∧ g.Derives [t] (α ++ s :: c :: β)) ∨
      (c = .endOfInput ∧ ∃ t α, g.startSymbol? = some t ∧ g.Derives [t] (α ++ [s])) := by
  have wf := built.wellFormed
  have closed := Begins.analysis_closed wf
  have sound := Begins.analysis_sound g
  obtain ⟨n, settles⟩ := Begins.settles_follow wf
  have sized : Begins.RowsSized g.analysis.follow g :=
    settles.keeps (Begins.initialFollow_sized wf) fun rows (inside : Begins.RowsSized rows g) =>
      inside.followPass (Begins.analysis_sized g)
  have known : Begins.RowsSound g.analysis.follow g :=
    settles.keeps (Begins.rowsSound_initialFollow g) fun rows (known : Begins.RowsSound rows g) =>
      known.followPass sound wf
  have below : Begins.RowsBelow (Analysis.initialFollow g) g.analysis.follow :=
    settles.keeps (.refl _) fun rows (below : Begins.RowsBelow _ rows) =>
      below.trans (Begins.below_followPass _ g rows)
  have start (t : Symbol) (chosen : g.startSymbol? = some t) :
      .endOfInput ∈ Begins.rowOf g.analysis.follow t := by
    obtain ⟨name, -, found⟩ := Option.bind_eq_some_iff.mp chosen
    exact below.row t _ (Begins.rowOf_initialFollow.mpr
      ⟨chosen, (wf.symbol?_iff.mp found).index_lt, rfl⟩)
  refine ⟨⟨n, settles⟩, fun s nonterminal => ?_⟩
  have bound : s.index < g.analysis.follow.length := by
    rw [sized.length]
    exact Grammar.index_lt_of_isNonterminal nonterminal
  have row : Begins.rowOf g.analysis.follow s = g.analysis.follow[s.index] := by
    simp [Begins.rowOf, bound]
  refine ⟨_, List.getElem?_eq_getElem bound, fun c => ?_⟩
  rw [← row]
  constructor
  · intro member
    have terminal := sized.members s c member
    exact (known s c member).imp_left fun adjoins => ⟨terminal, adjoins⟩
  · have here := Begins.mem_rowOf_of_follows closed wf settles.fixed sized start nonterminal (c := c)
    rintro (⟨terminal, adjoins⟩ | ⟨rfl, closes⟩)
    · exact here terminal (Or.inl adjoins)
    · exact here wf.isTerminal_endOfInput (Or.inr ⟨rfl, closes⟩)

/-- The set of the symbol `S` of `S -> S S | a` has `a`, so `a` stands behind `S` in some form. It also
has the end of the input, because `S` is a form of the start symbol. -/
theorem Grammar.doubled_follow_exact : Grammar.doubled.Built ∧ Grammar.doubled.isNonterminal ⟨1⟩ ∧
    (∃ t α β, Grammar.doubled.isNonterminal t ∧
      Grammar.doubled.Derives [t] (α ++ ⟨1⟩ :: ⟨2⟩ :: β)) ∧
    ∃ set, Grammar.doubled.analysis.follow? ⟨1⟩ = some set ∧ .endOfInput ∈ set := by
  obtain ⟨-, rows⟩ := Grammar.doubled_built.follow_exact
  have nonterminal : Grammar.doubled.isNonterminal ⟨1⟩ := by decide +kernel
  obtain ⟨set, row, follows⟩ := rows ⟨1⟩ nonterminal
  have known : (Grammar.doubled.analysis.follow? ⟨1⟩).any (·.contains ⟨2⟩) := by decide +kernel
  have member : ⟨2⟩ ∈ set := by simpa [row] using known
  refine ⟨Grammar.doubled_built, nonterminal, ?_, set, row, (follows _).mpr (Or.inr ⟨rfl, ?_⟩)⟩
  · rcases (follows ⟨2⟩).mp member with ⟨-, adjoins⟩ | ⟨ending, -⟩
    · exact adjoins
    · cases ending
  · exact ⟨⟨1⟩, [], by decide +kernel, .refl⟩

end ShiftReduce
