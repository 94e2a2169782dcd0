import ShiftReduce.Proofs.Grammar.Lookahead
import ShiftReduce.Proofs.Grammar.Productive

/-!
# Nullable symbols and FIRST sets hold

Whatever a pass adds is borne out by a derivation: a symbol marked as nullable derives the empty
word, and one that is said to begin with a terminal derives a word that does. So in a productive
grammar a lookahead stands at the front of some trees.
-/
namespace ShiftReduce

namespace Grammar

variable {g : Grammar} {α β δ ε : List Symbol} {s : Symbol}

theorem Derives.append_left (derives : g.Derives α β) (δ : List Symbol) :
    g.Derives (δ ++ α) (δ ++ β) := by
  induction derives with
  | refl => exact .refl
  | tail _ step ih =>
    apply ih.tail
    cases step with
    | replace before after member =>
      simpa using Rewrites.replace (δ ++ before) after member

theorem Derives.append (first : g.Derives α β) (second : g.Derives δ ε) :
    g.Derives (α ++ δ) (β ++ ε) :=
  (first.append_right δ).trans (second.append_left β)

theorem derives_of_mem {p : Production} (member : p ∈ g.productions) : g.Derives [p.lhs] p.rhs := by
  have step : g.Rewrites [p.lhs] p.rhs := by simpa using Rewrites.replace [] [] member
  exact .single step

/-- Of a symbol without productions nothing derives but the symbol itself. -/
theorem Derives.singleton_cases (derives : g.Derives [s] β) :
    β = [s] ∨ ∃ p ∈ g.productions, p.lhs = s := by
  rcases derives.cases_head with same | ⟨γ, step, -⟩
  · exact Or.inl same.symm
  · generalize word : [s] = α at step
    cases step with
    | replace before after member =>
      obtain ⟨-, lhs, -⟩ := split_singleton word
      exact Or.inr ⟨_, member, lhs⟩

/-- Known symbols only derive known ones. -/
theorem Derives.named (wf : g.WellFormed) (derives : g.Derives α β)
    (known : ∀ s ∈ α, ∃ name, g.Named s name) : ∀ s ∈ β, ∃ name, g.Named s name := by
  induction derives with
  | refl => exact known
  | tail _ step ih =>
    cases step with
    | @replace before after p member =>
      intro s occurs
      simp only [List.mem_append, List.mem_cons] at ih occurs
      rcases occurs with front | inside | behind
      · exact ih s (Or.inl front)
      · exact wf.named_of_mem member inside
      · exact ih s (Or.inr (Or.inr behind))

/-- Trees of the symbols that are left, with nodes for the rewriting put around them. -/
theorem Derives.forest (derives : g.Derives α β) {ts : List Tree}
    (ds : List.Forall₂ g.Derivation β ts) :
    ∃ us, List.Forall₂ g.Derivation α us ∧ Tree.fringe us = Tree.fringe ts := by
  induction derives generalizing ts with
  | refl => exact ⟨ts, ds, rfl⟩
  | tail _ step ih =>
    obtain ⟨us, es, same⟩ := step.trees ds
    obtain ⟨vs, fs, same'⟩ := ih es
    exact ⟨vs, fs, same'.trans same⟩

end Grammar

namespace Begins

/-! ## What is established is derived -/

/-- Every fact is borne out by a derivation. -/
structure Sound (b : Begins) (g : Grammar) : Prop where
  nullable : ∀ s, b.isNullable s → g.Derives [s] []
  first : ∀ s c, c ∈ b.firstOf s → ∃ β, g.Derives [s] (c :: β)

variable {b : Begins} {g : Grammar} {s c : Symbol} {β : List Symbol}

theorem Sound.all (sound : b.Sound g) (all : b.allNullable β) : g.Derives β [] := by
  induction β with
  | nil => exact .refl
  | cons s β ih =>
    obtain ⟨first, rest⟩ : b.isNullable s ∧ b.allNullable β := by simpa [allNullable] using all
    exact (sound.nullable s first).append (ih rest)

/-- What symbols can begin with begins a word that they derive, or trails behind nothing. -/
theorem Sound.beginnings (sound : b.Sound g) {trailing : Option Symbol}
    (begins : c ∈ b.beginnings β trailing) :
    (∃ δ, g.Derives β (c :: δ)) ∨ g.Derives β [] ∧ trailing = some c := by
  induction β with
  | nil => exact Or.inr ⟨.refl, mem_beginnings_nil.mp begins⟩
  | cons s β ih =>
    rcases mem_beginnings_cons.mp begins with first | ⟨nullable, later⟩
    · obtain ⟨δ, derives⟩ := sound.first s c first
      exact Or.inl ⟨δ ++ β, derives.append_right β⟩
    · -- the first symbol vanishes
      have gone : g.Derives (s :: β) β := (sound.nullable s nullable).append_right β
      rcases ih later with ⟨δ, derives⟩ | ⟨derives, last⟩
      · exact Or.inl ⟨δ, gone.trans derives⟩
      · exact Or.inr ⟨gone.trans derives, last⟩

theorem sound_initial (g : Grammar) : (initial g).Sound g where
  nullable s known := by
    unfold initial isNullable at known
    rw [List.getElem?_map] at known
    cases found : g.symbols[s.index]? <;> simp [found] at known
  first s c member := by
    obtain ⟨rfl, -⟩ := mem_firstOf_initial.mp member
    exact ⟨[], .refl⟩

theorem Sound.absorb (sound : b.Sound g) {lhs : Symbol} (derives : g.Derives [lhs] β) :
    (absorb lhs β b).Sound g := by
  induction β generalizing b with
  | nil => exact sound
  | cons s β ih =>
    have one : (absorbOne lhs s b).Sound g := by
      unfold absorbOne
      split
      · exact sound
      · refine ⟨sound.nullable, fun t c member => ?_⟩
        rcases mem_firstOf_gain.mp member with old | ⟨same, -, new⟩
        · exact sound.first t c old
        · obtain rfl : lhs = t := by cases lhs; cases t; exact congrArg _ same
          obtain ⟨δ, first⟩ := sound.first s c new
          exact ⟨δ ++ β, derives.trans (first.append_right β)⟩
    rw [absorb_cons]
    split
    next nullable =>
      exact ih one (derives.trans ((one.nullable s nullable).append_right β))
    next => exact one

theorem Sound.relax (sound : b.Sound g) {p : Production} (member : p ∈ g.productions) :
    (b.relax p).Sound g := by
  have derives := Grammar.derives_of_mem member
  have marked : (b.mark p).Sound g := by
    unfold mark
    split
    next all =>
      refine ⟨fun s known => ?_, sound.first⟩
      rcases isNullable_set.mp known with old | ⟨same, -⟩
      · exact sound.nullable s old
      · obtain rfl : p.lhs = s := by cases h : p.lhs; cases s; rw [h] at same; exact congrArg _ same
        exact derives.trans (sound.all all)
    next => exact sound
  exact marked.absorb derives

theorem Sound.pass (sound : b.Sound g) {ps : List Production} (known : ps ⊆ g.productions) :
    (b.pass ps).Sound g := by
  induction ps generalizing b with
  | nil => exact sound
  | cons p ps ih =>
    obtain ⟨member, later⟩ := List.cons_subset.mp known
    exact ih (sound.relax member) later

theorem analysis_sound (g : Grammar) : g.analysis.toBegins.Sound g :=
  (settles_analysis g).keeps (sound_initial g) fun b (sound : b.Sound g) =>
    sound.pass (List.Subset.refl _)

/-! ## Trees behind a lookahead -/

/-- Where every nonterminal is productive, a token that can be ahead of some symbols is the first
of some trees of theirs, unless they vanish and the token trails. -/
theorem Sound.trees (sound : b.Sound g) (wf : g.WellFormed)
    (productive : ∀ s, g.isNonterminal s → g.Productive s)
    (known : ∀ s ∈ β, ∃ name, g.Named s name) {trailing : Option Symbol}
    (begins : c ∈ b.beginnings β trailing) (terminal : g.isTerminal c) {token : Token}
    (named : token.name = g.name c) : ∃ ts, List.Forall₂ g.Derivation β ts ∧
      ((∃ more, Tree.fringe ts = token :: more) ∨ Tree.fringe ts = [] ∧ trailing = some c) := by
  rcases sound.beginnings begins with ⟨δ, derives⟩ | ⟨derives, last⟩
  · obtain ⟨us, es⟩ := Grammar.exists_trees productive fun s member =>
      derives.named wf known s (List.mem_cons_of_mem _ member)
    obtain ⟨ts, ds, same⟩ := derives.forest (.cons (.leaf terminal named) es)
    exact ⟨ts, ds, Or.inl ⟨Tree.fringe us, by simp [same]⟩⟩
  · obtain ⟨ts, ds, same⟩ := derives.forest .nil
    exact ⟨ts, ds, Or.inr ⟨same, last⟩⟩

end Begins

end ShiftReduce
