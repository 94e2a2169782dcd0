import ShiftReduce.Proofs.Grammar.Sentences
import ShiftReduce.Proofs.Parser.Termination

/-!
# Viable tokens

Every item of a canonical state stands for some sentence: what is before its dot, what is behind it
and its lookahead occur there in a row. So in a productive grammar a token that a canonical state has
any action for goes on with a sentence that begins with what is on the stack.
-/
namespace ShiftReduce

variable {g : Grammar} {a : Analysis} {γ : List Symbol} {item : Item}

/-- Some sentence of the goal, with an end behind it, begins with `tokens` and then has `token`. -/
def Viable (g : Grammar) (tokens : List Token) (token : Token) : Prop :=
  ∃ s tree last rest more, g.goal? = some s ∧ g.Derivation s tree ∧ last.isEnd ∧
    tree.leaves ++ last :: rest = tokens ++ token :: more

/-- Behind trees of the symbols that lead to an item and trees of those behind its dot, the
lookahead of the item may follow. -/
theorem Reached.viable (wf : g.WellFormed) (closed : a.Closed g) (sound : a.Sound g)
    (productive : ∀ s, g.isNonterminal s → g.Productive s) (reached : Reached g a γ item)
    {ts us : List Tree} (ds : List.Forall₂ g.Derivation γ ts)
    (es : List.Forall₂ g.Derivation (item.rest g) us) {token : Token}
    (ahead : g.symbol? token.name = some item.lookahead) :
    Viable g (Tree.fringe ts.reverse ++ Tree.fringe us) token := by
  induction reached generalizing ts us token with
  | @start accept chosen =>
    obtain ⟨q, s, found, rhs, -, goal⟩ := wf.goal chosen
    have behind : (Item.of accept 0 .endOfInput).rest g = [s, .endOfInput] := by
      simp [Item.rest, Item.production?, Item.of, found, rhs]
    rw [behind] at es
    cases ds
    rcases es with _ | ⟨derivation, _ | ⟨ending, ⟨⟩⟩⟩
    obtain ⟨last, rfl, named⟩ := ending.leaf_of_isTerminal wf wf.isTerminal_endOfInput
    have name : g.name .endOfInput = endName := Grammar.Named.name_eq ⟨_, wf.ending⟩
    exact ⟨s, _, last, [token], [], goal, derivation, by simp [Token.isEnd, named, name], by simp⟩
  | @expand γ item added before called ih =>
    obtain ⟨X, q, c, next, -, known, rfl, begins, rfl⟩ := (Item.mem_expansions wf).mp called
    rw [Item.rest_of wf known] at es
    have terminal := (before.expand called).terminal wf closed
    have named : token.name = g.name c := (wf.symbol?_iff.mp ahead).name_eq.symm
    -- the lookahead comes from the trees behind the symbol, or from behind the calling item
    obtain ⟨vs, fs, first⟩ :=
      sound.trees wf productive (item.advance.known_rest wf) begins terminal named
    have whole : List.Forall₂ g.Derivation (item.rest g) (.node q us :: vs) := by
      rw [Item.rest_of_next? next]
      exact .cons (.node known es) fs
    rcases first with ⟨more, first⟩ | ⟨none, last⟩
    · have follows : g.symbol? (g.sample item.lookahead).name = some item.lookahead :=
        wf.symbol?_iff.mpr (wf.named_of_isTerminal (before.terminal wf closed))
      obtain ⟨s, tree, last, rest, z, goal, derivation, isEnd, text⟩ := ih ds whole follows
      refine ⟨s, tree, last, rest, more ++ g.sample item.lookahead :: z, goal, derivation, isEnd, ?_⟩
      simp [text, first]
    · cases last
      obtain ⟨s, tree, last, rest, z, goal, derivation, isEnd, text⟩ := ih ds whole ahead
      exact ⟨s, tree, last, rest, z, goal, derivation, isEnd, by simp [text, none]⟩
  | @advance γ item X _ next _ ih =>
    cases ds with
    | @cons _ tree _ _ first ds =>
      -- the last tree moves back behind the dot
      have whole : List.Forall₂ g.Derivation (item.rest g) (tree :: us) := by
        rw [Item.rest_of_next? next]
        exact .cons first es
      simpa using ih ds whole ahead

namespace Parser

variable {p : Parser} {stack : List StackEntry}

section Canonical

variable {accept : Nat} (built : p.WellBuilt)
  (canonical : p.automaton.Canonical p.grammar p.analysis accept)
  (chosen : p.grammar.accept = some accept) (sound : p.analysis.Sound p.grammar)
  (productive : ∀ s, p.grammar.isNonterminal s → p.grammar.Productive s)

include built canonical chosen sound productive

/-- An item in the top state of a canonical automaton: any trees of what is behind its dot may
follow the stack, and then its lookahead. -/
theorem Supported.viable_of_item (supported : p.Supported γ stack) {items : ItemSet}
    (found : p.automaton.state? (topState stack) = some items) (member : item ∈ items)
    {us : List Tree} (es : List.Forall₂ p.grammar.Derivation (item.rest p.grammar) us) {token : Token}
    (ahead : p.grammar.symbol? token.name = some item.lookahead) :
    Viable p.grammar (Tree.fringe (treesOf stack) ++ Tree.fringe us) token := by
  have reached := canonical.reached supported.path chosen found item member
  have listed : treesOf stack = (stack.map (·.tree)).reverse := List.map_reverse
  rw [listed]
  exact reached.viable built.wellFormed built.closed sound productive supported.derivations es ahead

/-- The same of a symbol behind a dot that is a token's. -/
theorem Supported.viable_of_next (supported : p.Supported γ stack) {items : ItemSet}
    (found : p.automaton.state? (topState stack) = some items) (member : item ∈ items)
    {X : Symbol} (next : item.next? p.grammar = some X) (terminal : p.grammar.isTerminal X)
    {token : Token} (named : token.name = p.grammar.name X) :
    Viable p.grammar (Tree.fringe (treesOf stack)) token := by
  have reached := canonical.reached supported.path chosen found item member
  obtain ⟨vs, fs⟩ := Grammar.exists_trees productive (item.advance.known_rest built.wellFormed)
  have whole : List.Forall₂ p.grammar.Derivation (item.rest p.grammar) (.leaf token :: vs) := by
    rw [Item.rest_of_next? next]
    exact .cons (.leaf terminal named) fs
  have follows : p.grammar.symbol? (p.grammar.sample item.lookahead).name = some item.lookahead :=
    built.wellFormed.symbol?_iff.mpr
      (built.wellFormed.named_of_isTerminal (reached.terminal built.wellFormed built.closed))
  obtain ⟨s, tree, last, rest, more, goal, derivation, isEnd, text⟩ :=
    supported.viable_of_item built canonical chosen sound productive found member whole follows
  refine ⟨s, tree, last, rest, Tree.fringe vs ++ p.grammar.sample item.lookahead :: more, goal,
    derivation, isEnd, ?_⟩
  simp [text]

/-- A canonical state has actions for viable tokens only. -/
theorem Supported.viable_of_cell (supported : p.Supported γ stack) {X : Symbol} {act : Action}
    (terminal : p.grammar.isTerminal X) (held : p.table.cell? (topState stack) X = some act)
    {token : Token} (named : token.name = p.grammar.name X) :
    Viable p.grammar (Tree.fringe (treesOf stack)) token := by
  rw [built.table] at held
  obtain ⟨items, found, requested⟩ := Table.requested_of_cell? held
  cases requested with
  | shift edge =>
    obtain ⟨-, items', found', item, member, next⟩ := built.tracks.edge _ _ _
      (built.tracks.mem_edgesOf_iff.mp edge)
    cases found.symm.trans found'
    exact supported.viable_of_next built canonical chosen sound productive found member next terminal
      named
  | goto _ nonterminal => exact absurd terminal nonterminal
  | accept accepts =>
    obtain ⟨item, member, accepting⟩ := List.any_eq_true.mp accepts
    obtain ⟨-, next⟩ : p.grammar.accept = some item.place.production ∧
        item.next? p.grammar = some .endOfInput := by simpa [Item.isAccepting] using accepting
    exact supported.viable_of_next built canonical chosen sound productive found member next terminal
      named
  | @reduce item q member completed =>
    obtain ⟨production, -, -, whole⟩ := built.production_of_completed completed
    have complete : item.rest p.grammar = [] := by
      simpa [Item.rest, production, Production.length] using whole
    have none : List.Forall₂ p.grammar.Derivation (item.rest p.grammar) [] := complete ▸ .nil
    have ahead : p.grammar.symbol? token.name = some item.lookahead :=
      built.wellFormed.symbol?_iff.mpr (named ▸ built.wellFormed.named_of_isTerminal terminal)
    simpa using supported.viable_of_item built canonical chosen sound productive found member none
      ahead

/-- Some token is viable behind every stack. -/
theorem Supported.exists_viable (supported : p.Supported γ stack) :
    ∃ tokens token, Viable p.grammar (Tree.fringe (treesOf stack) ++ tokens) token := by
  obtain ⟨items, found, item, member⟩ := built.tracks.inhabited chosen supported.path
  obtain ⟨us, es⟩ := Grammar.exists_trees productive (item.known_rest built.wellFormed)
  have reached := canonical.reached supported.path chosen found item member
  have ahead : p.grammar.symbol? (p.grammar.sample item.lookahead).name = some item.lookahead :=
    built.wellFormed.symbol?_iff.mpr
      (built.wellFormed.named_of_isTerminal (reached.terminal built.wellFormed built.closed))
  exact ⟨Tree.fringe us, p.grammar.sample item.lookahead,
    supported.viable_of_item built canonical chosen sound productive found member es ahead⟩

end Canonical

end Parser

end ShiftReduce
