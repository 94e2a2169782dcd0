import Mathlib.Computability.Language
import ShiftReduce.Proofs.Grammar.Firsts

/-!
# Sentences

The language of a symbol, as names of terminals. Its words are the names on the leaves of the trees
of the symbol, and the end of the input is in none of them where nothing calls for the accept
production.
-/
namespace ShiftReduce.Grammar

variable {g : Grammar} {s : Symbol} {t : Tree}

/-- The words of terminals that derive from `s`, by the names of the terminals. -/
def sentences (g : Grammar) (s : Symbol) : Language String :=
  {names | ∃ word, g.Derives [s] word ∧ (∀ c ∈ word, g.isTerminal c) ∧ word.map g.name = names}

/-- Some sentence of `s` begins with `names`. -/
def Opens (g : Grammar) (s : Symbol) (names : List String) : Prop :=
  ∃ more, names ++ more ∈ g.sentences s

/-- What may come behind `names`, listed once each and in the order of the symbols: the terminals
that some sentence goes on with, and the end of the input if `names` is a sentence itself. -/
structure Expects (g : Grammar) (s : Symbol) (names expected : List String) : Prop where
  distinct : expected.Nodup
  exact : ∃ ts : List Symbol, expected = ts.map g.name ∧ ts.Pairwise (·.index < ·.index) ∧
    ∀ t, t ∈ ts ↔ g.isTerminal t ∧
      if t = .endOfInput then names ∈ g.sentences s else g.Opens s (names ++ [g.name t])

/-! ## Sentences and trees -/

theorem derives_fringe {α : List Symbol} {ts : List Tree}
    (each : List.Forall₂ (fun s t => t.leaves.map (·.name) ∈ g.sentences s) α ts) :
    ∃ word, g.Derives α word ∧ (∀ c ∈ word, g.isTerminal c) ∧
      word.map g.name = (Tree.fringe ts).map (·.name) := by
  induction each with
  | nil => exact ⟨[], .refl, by simp, rfl⟩
  | cons first _ ih =>
    obtain ⟨front, derives, terminals, names⟩ := first
    obtain ⟨word, derives', terminals', names'⟩ := ih
    refine ⟨front ++ word, derives.append derives', fun c member => ?_, by simp [names, names']⟩
    rcases List.mem_append.mp member with inFront | behind
    · exact terminals c inFront
    · exact terminals' c behind

/-- The names on the leaves of a tree are a sentence. -/
theorem Derivation.mem_sentences (d : g.Derivation s t) :
    t.leaves.map (·.name) ∈ g.sentences s := by
  refine d.induct ?leaf ?node
  case leaf =>
    intro s token terminal named
    exact ⟨[s], .refl, by simpa using terminal, by simp [named]⟩
  case node =>
    intro p cs member _ each
    obtain ⟨word, derives, terminals, names⟩ := derives_fringe each
    exact ⟨word, (derives_of_mem member).trans derives, terminals, by simp [names]⟩

/-- Tokens whose names are a sentence are the leaves of a tree. -/
theorem exists_tree_of_mem_sentences {tokens : List Token}
    (member : tokens.map (·.name) ∈ g.sentences s) : ∃ t, g.Derivation s t ∧ t.leaves = tokens := by
  obtain ⟨word, derives, terminals, names⟩ := member
  have named : List.Forall₂ (fun c token => token.name = g.name c) word tokens := by
    rw [← List.forall₂_map_right_iff (f := Token.name) (R := fun c name => name = g.name c), ← names,
      List.forall₂_map_right_iff, List.forall₂_same]
    exact fun c _ => rfl
  obtain ⟨ts, ds, fringe⟩ := derives.trees terminals named
  cases ds with
  | cons d none =>
    cases none
    exact ⟨_, d, by simpa using fringe⟩

/-! ## The end of the input -/

/-- No tree of a symbol but the end of the input has it among its leaves, if it does not come from
the accept production. -/
theorem Derivation.not_isEnd (wf : g.WellFormed) (fresh : g.AcceptFresh) (d : g.Derivation s t)
    (proper : s ≠ .endOfInput) (inner : ∀ q, g.acceptProduction? = some q → q.lhs ≠ s) :
    ∀ token ∈ t.leaves, ¬ token.isEnd := by
  revert proper inner
  refine d.induct ?leaf ?node
  case leaf =>
    intro s token terminal named proper _ other member
    rw [Tree.leaves_leaf, List.mem_singleton] at member
    subst member
    intro last
    have ending : g.symbol? other.name = some .endOfInput :=
      wf.symbol?_eq_endOfInput_iff.mpr (by simpa [Token.isEnd] using last)
    exact proper (Option.some.inj (((Derivation.leaf terminal named).symbol? wf).symm.trans ending))
  case node =>
    intro p cs member _ each _ inner token leaf
    -- the production is not the accept production, so neither symbol occurs in it
    have ends : Symbol.endOfInput ∉ p.rhs := by
      intro occurs
      have chosen : g.acceptProduction? = some p := by
        rw [acceptProduction?, wf.ends p member occurs]
        exact wf.production?_index member
      exact inner p chosen rfl
    rw [Tree.leaves_node, Tree.fringe, List.mem_flatMap] at leaf
    obtain ⟨c, child, leaf⟩ := leaf
    obtain ⟨i, bound, rfl⟩ := List.mem_iff_getElem.mp child
    obtain ⟨lengths, each⟩ := List.forall₂_iff_get.mp each
    have occurs : p.rhs[i] ∈ p.rhs := List.getElem_mem (lengths ▸ bound)
    refine each i (lengths ▸ bound) bound ?_ ?_ token leaf
    · intro same
      exact ends (same ▸ occurs)
    · intro q chosen same
      exact fresh q chosen p member (same ▸ occurs)

/-- No sentence of the goal has the end of the input in it. -/
theorem WellFormed.not_isEnd_of_goal (wf : g.WellFormed) (fresh : g.AcceptFresh)
    (goal : g.goal? = some s) (d : g.Derivation s t) : ∀ token ∈ t.leaves, ¬ token.isEnd := by
  obtain ⟨q, chosen, first⟩ := Option.bind_eq_some_iff.mp goal
  obtain ⟨i, accept, found⟩ := Option.bind_eq_some_iff.mp chosen
  obtain ⟨q', s', found', rhs, nonterminal, -⟩ := wf.goal accept
  cases found.symm.trans found'
  rw [rhs, List.head?_cons, Option.some.injEq] at first
  subst first
  refine d.not_isEnd wf fresh (wf.ne_endOfInput nonterminal) fun r chosen' same => ?_
  cases chosen.symm.trans chosen'
  refine fresh q chosen q (mem_of_production? found) ?_
  rw [same, rhs]
  exact List.mem_cons_self

end ShiftReduce.Grammar
