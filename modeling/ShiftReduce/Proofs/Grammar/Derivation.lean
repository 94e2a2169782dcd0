import Mathlib.Data.List.Forall2
import Mathlib.Logic.Relation
import ShiftReduce.Proofs.Grammar.WellFormed
import ShiftReduce.Proofs.Tree.Leaves

/-!
# Derivations

What a grammar means: words of symbols are rewritten by its productions, and a derivation tree
records which production replaced which symbol.
-/
namespace ShiftReduce.Grammar

/-- One symbol gives way to the right-hand side of one of its productions. -/
inductive Rewrites (g : Grammar) : List Symbol → List Symbol → Prop
  | replace (before after : List Symbol) {p : Production} (member : p ∈ g.productions) :
      Rewrites g (before ++ p.lhs :: after) (before ++ (p.rhs ++ after))

/-- Rewriting any number of times. -/
def Derives (g : Grammar) : List Symbol → List Symbol → Prop := Relation.ReflTransGen g.Rewrites

/-- Some word of terminals derives from `s`. -/
def Productive (g : Grammar) (s : Symbol) : Prop :=
  ∃ word, g.Derives [s] word ∧ ∀ c ∈ word, g.isTerminal c

/-- A tree of a symbol: a leaf with a token of that terminal, or a node of one of its productions
with one tree for each symbol of the right-hand side. -/
inductive Derivation (g : Grammar) : Symbol → Tree → Prop
  | leaf {s : Symbol} {token : Token} (terminal : g.isTerminal s)
      (named : token.name = g.name s) : Derivation g s (.leaf token)
  | node {p : Production} {cs : List Tree} (member : p ∈ g.productions)
      (below : List.Forall₂ (Derivation g) p.rhs cs) : Derivation g p.lhs (.node p cs)

variable {g : Grammar} {s : Symbol}

/-- Induction on derivation trees, the hypothesis for every child at once. -/
@[elab_as_elim]
theorem Derivation.induct {motive : Symbol → Tree → Prop} {t : Tree} (d : g.Derivation s t)
    (leaf : ∀ s token, g.isTerminal s → token.name = g.name s → motive s (.leaf token))
    (node : ∀ p cs, p ∈ g.productions → List.Forall₂ g.Derivation p.rhs cs →
      List.Forall₂ motive p.rhs cs → motive p.lhs (.node p cs)) : motive s t :=
  @Derivation.rec g (fun s t _ => motive s t) (fun ss ts _ => List.Forall₂ motive ss ts)
    (fun terminal named => leaf _ _ terminal named)
    (fun member below children => node _ _ member below children)
    .nil (fun _ _ first rest => .cons first rest) s t d

/-! ## Where rewriting happens -/

/-- A member of two lists in a row is in the first or in the second. -/
theorem split_append {α β γ δ : List Symbol} (same : γ ++ δ = α ++ s :: β) :
    (∃ rest, γ = α ++ s :: rest ∧ β = rest ++ δ) ∨ ∃ rest, δ = rest ++ s :: β ∧ α = γ ++ rest := by
  rcases List.append_eq_append_iff.mp same with ⟨rest, rfl, tail⟩ | ⟨rest, rfl, tail⟩
  · exact Or.inr ⟨rest, tail, rfl⟩
  · cases rest with
    | nil => exact Or.inr ⟨[], tail.symm, by simp⟩
    | cons x rest =>
      obtain ⟨rfl, rfl⟩ := List.cons.inj tail
      exact Or.inl ⟨rest, rfl, rfl⟩

theorem split_singleton {α β : List Symbol} {t : Symbol} (same : [t] = α ++ s :: β) :
    α = [] ∧ s = t ∧ β = [] := by
  rcases List.append_eq_singleton_iff.mp same.symm with ⟨rfl, tail⟩ | ⟨-, tail⟩
  · obtain ⟨rfl, rfl⟩ := List.cons.inj tail
    exact ⟨rfl, rfl, rfl⟩
  · cases tail

theorem split_middle {α β before middle after : List Symbol}
    (same : before ++ (middle ++ after) = α ++ s :: β) :
    (∃ rest, before = α ++ s :: rest ∧ β = rest ++ (middle ++ after)) ∨
    (∃ rest, after = rest ++ s :: β ∧ α = before ++ (middle ++ rest)) ∨
    ∃ front back, middle = front ++ s :: back ∧ α = before ++ front ∧ β = back ++ after := by
  rcases split_append same with first | ⟨rest, tail, rfl⟩
  · exact Or.inl first
  · rcases split_append tail with ⟨back, inside, rfl⟩ | ⟨behind, rfl, rfl⟩
    · exact Or.inr (Or.inr ⟨rest, back, inside, rfl, rfl⟩)
    · exact Or.inr (Or.inl ⟨behind, rfl, rfl⟩)

/-- A symbol of a rewritten word was there before, with the rewriting behind it or in front of it,
or it came with the right-hand side. -/
theorem Rewrites.split {α β γ : List Symbol} (step : g.Rewrites γ (α ++ s :: β)) :
    (∃ δ, γ = α ++ s :: δ ∧ g.Rewrites δ β) ∨ (∃ δ, γ = δ ++ s :: β ∧ g.Rewrites δ α) ∨
      ∃ p ∈ g.productions, ∃ before front back after, p.rhs = front ++ s :: back ∧
        α = before ++ front ∧ β = back ++ after ∧ γ = before ++ p.lhs :: after := by
  generalize word : α ++ s :: β = δ at step
  cases step with
  | @replace before after p member =>
    rcases split_middle word.symm with ⟨rest, rfl, rfl⟩ | ⟨rest, rfl, rfl⟩ |
      ⟨front, back, rhs, rfl, rfl⟩
    · exact Or.inl ⟨rest ++ p.lhs :: after, by simp, .replace rest after member⟩
    · exact Or.inr (Or.inl ⟨before ++ p.lhs :: rest, by simp, .replace before rest member⟩)
    · exact Or.inr (Or.inr ⟨p, member, before, front, back, after, rhs, rfl, rfl, rfl⟩)

/-! ## Tokens of terminals -/

theorem WellFormed.named_of_isTerminal (wf : g.WellFormed) (terminal : g.isTerminal s) :
    g.Named s (g.name s) := by
  obtain ⟨name, kind, entry, -⟩ := (isTerminal_iff wf.aligned).mp terminal
  have named : g.Named s name := ⟨kind, entry⟩
  exact named.name_eq ▸ named

/-- A token names the terminal it is a leaf of. -/
theorem Derivation.symbol? (wf : g.WellFormed) {token : Token}
    (d : g.Derivation s (.leaf token)) : g.symbol? token.name = some s := by
  cases d with
  | leaf terminal named => exact wf.symbol?_iff.mpr (named ▸ wf.named_of_isTerminal terminal)

/-- A tree names the symbol it is a tree of. -/
theorem Derivation.symbol?_name {t : Tree} (wf : g.WellFormed) (d : g.Derivation s t) :
    g.symbol? t.name = some s := by
  cases d with
  | leaf terminal named => exact (Derivation.leaf terminal named).symbol? wf
  | node member below => exact wf.symbol?_iff.mpr ⟨_, wf.left _ member⟩

/-- A tree of a nonterminal is a node of one of its productions. -/
theorem Derivation.node_of_isNonterminal {t : Tree} (d : g.Derivation s t)
    (nonterminal : g.isNonterminal s) : ∃ p cs, t = .node p cs ∧ p.lhs = s ∧
      p ∈ g.productions ∧ List.Forall₂ g.Derivation p.rhs cs := by
  cases d with
  | leaf terminal => exact absurd terminal (not_isTerminal_of_isNonterminal nonterminal)
  | node member below => exact ⟨_, _, rfl, rfl, member, below⟩

theorem Derivation.leaf_of_isTerminal (wf : g.WellFormed) {t : Tree} (d : g.Derivation s t)
    (terminal : g.isTerminal s) : ∃ token, t = .leaf token ∧ token.name = g.name s := by
  cases d with
  | leaf _ named => exact ⟨_, rfl, named⟩
  | node member =>
    exact absurd terminal (not_isTerminal_of_isNonterminal (wf.isNonterminal_lhs member))

/-! ## From words to trees -/

theorem WellFormed.named_of_mem (wf : g.WellFormed) {p : Production} (member : p ∈ g.productions)
    (occurs : s ∈ p.rhs) : ∃ name, g.Named s name := by
  have named := wf.right p member
  obtain ⟨i, bound, rfl⟩ := List.mem_iff_getElem.mp occurs
  obtain ⟨lengths, each⟩ := List.forall₂_iff_get.mp named
  exact ⟨_, each i bound (lengths ▸ bound)⟩

/-- The trees of two words in a row, apart. -/
theorem derivations_append {α β : List Symbol} {ts : List Tree}
    (ds : List.Forall₂ g.Derivation (α ++ β) ts) : ∃ us vs, ts = us ++ vs ∧
      List.Forall₂ g.Derivation α us ∧ List.Forall₂ g.Derivation β vs := by
  refine ⟨ts.take α.length, ts.drop α.length, (List.take_append_drop _ _).symm, ?_, ?_⟩
  · simpa using List.forall₂_take α.length ds
  · simpa using List.forall₂_drop α.length ds

/-- One rewriting step, undone by putting a node around the trees of the right-hand side. -/
theorem Rewrites.trees {α β : List Symbol} (step : g.Rewrites α β) {ts : List Tree}
    (ds : List.Forall₂ g.Derivation β ts) :
    ∃ us, List.Forall₂ g.Derivation α us ∧ Tree.fringe us = Tree.fringe ts := by
  cases step with
  | @replace before after p member =>
    obtain ⟨us, vs, rfl, first, rest⟩ := derivations_append ds
    obtain ⟨cs, ws, rfl, middle, last⟩ := derivations_append rest
    refine ⟨us ++ .node p cs :: ws, ?_, by simp⟩
    exact List.rel_append first (.cons (.node member middle) last)

/-- Whatever word of terminals derives from some symbols is the fringe of trees of theirs. -/
theorem Derives.trees {α word : List Symbol} (derives : g.Derives α word)
    (terminals : ∀ c ∈ word, g.isTerminal c) {tokens : List Token}
    (named : List.Forall₂ (fun c token => token.name = g.name c) word tokens) :
    ∃ ts, List.Forall₂ g.Derivation α ts ∧ Tree.fringe ts = tokens := by
  induction derives using Relation.ReflTransGen.head_induction_on with
  | refl =>
    -- a word of terminals is a row of leaves
    refine ⟨tokens.map Tree.leaf, ?_, by simp [Tree.fringe, List.flatMap_map]⟩
    induction named with
    | nil => exact .nil
    | cons name _ ih =>
      exact .cons (.leaf (terminals _ (by simp)) name)
        (ih fun c member => terminals c (List.mem_cons_of_mem _ member))
  | head step _ ih =>
    -- the first step is undone last
    obtain ⟨ts, ds, rfl⟩ := ih
    exact step.trees ds

/-- Some token of a terminal. -/
def sample (g : Grammar) (c : Symbol) : Token := { Token.endAt 0 with name := g.name c }

theorem Productive.tree (productive : g.Productive s) : ∃ t, g.Derivation s t := by
  obtain ⟨word, derives, terminals⟩ := productive
  have named : List.Forall₂ (fun c token => token.name = g.name c) word (word.map g.sample) := by
    clear derives terminals
    induction word with
    | nil => exact .nil
    | cons c rest ih => exact .cons rfl ih
  obtain ⟨ts, ds, -⟩ := derives.trees terminals named
  cases ds with
  | cons d _ => exact ⟨_, d⟩

/-- Where every nonterminal is productive, so is every right-hand side. -/
theorem exists_trees (productive : ∀ s, g.isNonterminal s → g.Productive s)
    {β : List Symbol} (known : ∀ s ∈ β, ∃ name, g.Named s name) :
    ∃ ts, List.Forall₂ g.Derivation β ts := by
  induction β with
  | nil => exact ⟨[], .nil⟩
  | cons s rest ih =>
    obtain ⟨ts, ds⟩ := ih fun t member => known t (List.mem_cons_of_mem _ member)
    obtain ⟨name, named⟩ := known s List.mem_cons_self
    rcases isTerminal_or_isNonterminal named with terminal | nonterminal
    · exact ⟨.leaf (g.sample s) :: ts, .cons (.leaf terminal rfl) ds⟩
    · obtain ⟨t, d⟩ := (productive s nonterminal).tree
      exact ⟨t :: ts, .cons d ds⟩

end ShiftReduce.Grammar
