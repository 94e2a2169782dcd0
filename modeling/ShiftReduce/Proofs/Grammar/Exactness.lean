import ShiftReduce.Proofs.Grammar.Firsts
import ShiftReduce.Proofs.Grammar.Follow

/-!
# Nullable symbols and FIRST sets are exact

What the productions ask for is all that derivations can show: rewriting back, step by step, keeps
what a word can begin with. So the analysis says of every word of symbols whether it vanishes and
which terminals begin the words that derive from it.
-/
namespace ShiftReduce.Begins

variable {b : Begins} {g : Grammar} {α β : List Symbol} {c : Symbol}

theorem allNullable_append : b.allNullable (α ++ β) ↔ b.allNullable α ∧ b.allNullable β := by
  simp [allNullable]

theorem mem_beginnings_append {trailing : Option Symbol} :
    c ∈ b.beginnings (α ++ β) trailing ↔
      c ∈ b.beginnings α none ∨ b.allNullable α ∧ c ∈ b.beginnings β trailing := by
  induction α with
  | nil => simp [mem_beginnings_nil, allNullable]
  | cons s α ih =>
    rw [List.cons_append, mem_beginnings_cons, ih, mem_beginnings_cons]
    have both : b.allNullable (s :: α) ↔ b.isNullable s ∧ b.allNullable α := by
      simp [allNullable]
    rw [both]
    tauto

/-- What trails counts only behind symbols that all vanish. -/
theorem mem_beginnings_trailing {trailing : Option Symbol} : c ∈ b.beginnings α trailing ↔
    c ∈ b.beginnings α none ∨ b.allNullable α ∧ trailing = some c := by
  have split : c ∈ b.beginnings (α ++ []) trailing ↔ _ := mem_beginnings_append
  rwa [List.append_nil, mem_beginnings_nil] at split

/-! ## What derivations show is established -/

section Closed

variable (closed : b.Closed g)

include closed

theorem Closed.allNullable_of_rewrites (step : g.Rewrites α β) (vanishes : b.allNullable β) :
    b.allNullable α := by
  cases step with
  | @replace before after p member =>
    simp only [allNullable_append] at vanishes
    obtain ⟨front, inside, back⟩ := vanishes
    have whole : b.allNullable (p.lhs :: after) := by
      simpa [allNullable, closed.nullable p member inside] using back
    exact allNullable_append.mpr ⟨front, whole⟩

/-- What begins a word begins every word that it was rewritten from. -/
theorem Closed.beginnings_of_rewrites (step : g.Rewrites α β) (begins : c ∈ b.beginnings β none) :
    c ∈ b.beginnings α none := by
  cases step with
  | @replace before after p member =>
    simp only [mem_beginnings_append, mem_beginnings_cons] at begins ⊢
    rcases begins with front | ⟨vanishes, inside | ⟨gone, behind⟩⟩
    · exact Or.inl front
    · exact Or.inr ⟨vanishes, Or.inl (closed.first p member c inside)⟩
    · exact Or.inr ⟨vanishes, Or.inr ⟨closed.nullable p member gone, behind⟩⟩

theorem Closed.allNullable_of_derives (derives : g.Derives α []) : b.allNullable α := by
  induction derives using Relation.ReflTransGen.head_induction_on with
  | refl => rfl
  | head step _ ih => exact closed.allNullable_of_rewrites step ih

theorem Closed.beginnings_of_derives (terminal : g.isTerminal c) (derives : g.Derives α (c :: β)) :
    c ∈ b.beginnings α none := by
  induction derives using Relation.ReflTransGen.head_induction_on with
  | refl => exact mem_beginnings_cons.mpr (Or.inl (closed.terminal c terminal))
  | head step _ ih => exact closed.beginnings_of_rewrites step ih

end Closed

/-! ## Exactness -/

theorem Sound.eq_of_isTerminal (sound : b.Sound g) (wf : g.WellFormed) {t : Symbol}
    (terminal : g.isTerminal t) (first : c ∈ b.firstOf t) : c = t := by
  obtain ⟨β, derives⟩ := sound.first t c first
  -- no production rewrites a terminal
  rcases Relation.ReflTransGen.cases_head derives with same | ⟨_, step, -⟩
  · exact (List.cons.inj same).1.symm
  · generalize word : [t] = α at step
    cases step with
    | @replace before after p member =>
      obtain ⟨-, lhs, -⟩ := Grammar.split_singleton word
      exact absurd terminal
        (Grammar.not_isTerminal_of_isNonterminal (lhs ▸ wf.isNonterminal_lhs member))

/-- What sequences begin with, in front of a terminal or nothing, is exactly what derivations show. -/
theorem Closed.mem_beginnings_iff (closed : b.Closed g) (sound : b.Sound g) (wf : g.WellFormed)
    {trailing : Option Symbol} (terminals : ∀ t ∈ trailing, g.isTerminal t) :
    c ∈ b.beginnings α trailing ↔
      g.isTerminal c ∧ ∃ β, g.Derives (α ++ trailing.toList) (c :: β) := by
  constructor
  · intro begins
    constructor
    · exact (terminal_of_beginnings closed.members begins).elim id (terminals c)
    · rcases sound.beginnings begins with ⟨δ, derives⟩ | ⟨vanishes, rfl⟩
      · exact ⟨δ ++ trailing.toList, derives.append_right trailing.toList⟩
      · exact ⟨[], vanishes.append_right [c]⟩
  · rintro ⟨terminal, β, derives⟩
    refine mem_beginnings_trailing.mpr ?_
    rcases mem_beginnings_append.mp (closed.beginnings_of_derives terminal derives) with
      front | ⟨vanishes, last⟩
    · exact Or.inl front
    · refine Or.inr ⟨vanishes, ?_⟩
      cases trailing with
      | none => simp [mem_beginnings_nil] at last
      | some t =>
        have first : c ∈ b.firstOf t := by
          simpa [mem_beginnings_cons, mem_beginnings_nil] using last
        rw [sound.eq_of_isTerminal wf (terminals t rfl) first]

end ShiftReduce.Begins

namespace ShiftReduce

variable {g : Grammar}

/-- Exactness: computing nullable symbols, FIRST and FOLLOW sets comes to an end. A sequence of
symbols is nullable exactly if it derives the empty word, and the terminals that it can begin with,
in front of a terminal or nothing, are exactly those that begin a derived form. The FIRST set of a
symbol is that of the symbol alone. -/
theorem Grammar.Built.analysis_exact (built : g.Built) :
    Settles (Begins.pass g.productions) (.initial g) g.analysis.passes g.analysis.toBegins ∧
    (∃ n, Settles (g.analysis.followPass g) (Analysis.initialFollow g) n g.analysis.follow) ∧
    (∀ s, g.analysis.isNullable s ↔ g.Derives [s] []) ∧
    (∀ s, s.index < g.numSymbols → ∃ set, g.analysis.first? s = some set ∧
      ∀ c, c ∈ set ↔ g.isTerminal c ∧ ∃ β, g.Derives [s] (c :: β)) ∧
    (∀ α, g.analysis.allNullable α ↔ g.Derives α []) ∧
    ∀ α trailing, (∀ t ∈ trailing, g.isTerminal t) → ∀ c, c ∈ g.analysis.beginnings α trailing ↔
      g.isTerminal c ∧ ∃ β, g.Derives (α ++ trailing.toList) (c :: β) := by
  have wf := built.wellFormed
  have closed := Begins.analysis_closed wf
  have sound := Begins.analysis_sound g
  have settles := Begins.settles_analysis g
  have vanishes (α : List Symbol) : g.analysis.allNullable α ↔ g.Derives α [] :=
    ⟨sound.all, closed.allNullable_of_derives⟩
  refine ⟨settles, Begins.settles_follow wf, fun s => ?_, fun s known => ?_, vanishes,
    fun α trailing terminals c => closed.mem_beginnings_iff sound wf terminals⟩
  · rw [← vanishes]
    simp [Begins.allNullable]
  · have length := (Begins.analysis_sized g).firstLength
    have found : g.analysis.first? s = some (g.analysis.firstOf s) := by
      have row : g.analysis.first[s.index]? = some g.analysis.first[s.index] :=
        List.getElem?_eq_getElem (length ▸ known)
      rw [Begins.firstOf, Begins.first?, row]
      rfl
    refine ⟨_, found, fun c => ?_⟩
    -- a symbol alone begins with what is in its row
    have alone : c ∈ g.analysis.firstOf s ↔ c ∈ g.analysis.beginnings [s] none := by
      simp [Begins.mem_beginnings_cons, Begins.mem_beginnings_nil]
    rw [alone]
    exact closed.mem_beginnings_iff sound wf (by simp)

/-- The symbol `S` of `S -> a S | b` never vanishes, and in front of the end it can begin with `b`. -/
theorem Grammar.chain_analysis_exact : Grammar.chain.Built ∧ ¬ Grammar.chain.Derives [⟨1⟩] [] ∧
    ∃ β, Grammar.chain.Derives [⟨1⟩, .endOfInput] (⟨3⟩ :: β) := by
  obtain ⟨-, -, nullable, -, -, begins⟩ := Grammar.chain_built.analysis_exact
  refine ⟨Grammar.chain_built, ?_, ?_⟩
  · rw [← nullable]
    decide +kernel
  · have terminal : Grammar.chain.isTerminal .endOfInput := by decide +kernel
    exact ((begins [⟨1⟩] (some .endOfInput) (by simpa using terminal) ⟨3⟩).mp
      (by decide +kernel)).2

end ShiftReduce
