import ShiftReduce.Proofs.Grammar.Productive
import ShiftReduce.Proofs.Parser.Completeness

/-!
# Termination

Where every nonterminal is productive, whatever is on the stack begins some sentence. The run over
that sentence passes through the same trees and ends, so none of them takes more moves to build than
the budget has. This holds in front of every token, be it a wrong one.
-/
namespace ShiftReduce

variable {g : Grammar} {a : Analysis} {γ : List Symbol} {item : Item}

/-- Trees of the symbols that lead to an item and of those behind its dot are the beginning of a
tree of the goal. What follows them begins with a lookahead of the item. -/
theorem Reached.completes (wf : g.WellFormed) (closed : a.Closed g)
    (productive : ∀ s, g.isNonterminal s → g.Productive s) (reached : Reached g a γ item)
    {ts us : List Tree} (ds : List.Forall₂ g.Derivation γ ts)
    (es : List.Forall₂ g.Derivation (item.rest g) us) :
    ∃ b s z tree last rest, Reached g a γ ⟨item.place, b⟩ ∧ g.ahead? z = some b ∧
      g.goal? = some s ∧ g.Derivation s tree ∧ last.isEnd ∧
      tree.leaves ++ last :: rest = Tree.fringe ts.reverse ++ (Tree.fringe us ++ z) := by
  induction reached generalizing ts us with
  | @start accept chosen =>
    obtain ⟨q, s, found, rhs, -, goal⟩ := wf.goal chosen
    have behind : (Item.of accept 0 .endOfInput).rest g = [s, .endOfInput] := by
      simp [Item.rest, Item.production?, Item.of, found, rhs]
    rw [behind] at es
    cases ds
    cases es with
    | @cons _ tree _ _ derivation es =>
      cases es with
      | cons ending es =>
        cases es
        obtain ⟨last, rfl, named⟩ := ending.leaf_of_isTerminal wf wf.isTerminal_endOfInput
        -- the end of the input is a leaf itself; another one may follow it
        have endAt : g.ahead? [Token.endAt 0] = some .endOfInput :=
          wf.symbol?_eq_endOfInput_iff.mpr rfl
        have isEnd : last.isEnd := by
          have name : g.name .endOfInput = endName := Grammar.Named.name_eq ⟨_, wf.ending⟩
          simp [Token.isEnd, named, name]
        exact ⟨_, s, [Token.endAt 0], tree, last, [Token.endAt 0], .start chosen, endAt, goal,
          derivation, isEnd, by simp⟩
  | @expand γ item added _ called ih =>
    obtain ⟨X, q, c, next, nonterminal, known, rfl, -, rfl⟩ := (Item.mem_expansions wf).mp called
    rw [Item.rest_of wf known] at es
    -- what the calling item has behind the symbol is completed by any trees
    obtain ⟨vs, fs⟩ := Grammar.exists_trees productive (item.advance.known_rest wf)
    have whole : List.Forall₂ g.Derivation (item.rest g) (.node q us :: vs) := by
      rw [Item.rest_of_next? next]
      exact .cons (.node known es) fs
    obtain ⟨b, s, z, tree, last, rest, reached, ahead, goal, derivation, isEnd, text⟩ := ih ds whole
    obtain ⟨d, now, begins⟩ := closed.ahead wf fs ahead
    have called' : Item.of q.index 0 d ∈ (⟨item.place, b⟩ : Item).expansions g a :=
      (Item.mem_expansions wf).mpr ⟨q.lhs, q, d, next, nonterminal, known, rfl, begins, rfl⟩
    refine ⟨d, s, Tree.fringe vs ++ z, tree, last, rest, reached.expand called', now, goal,
      derivation, isEnd, ?_⟩
    rw [text, Tree.fringe_cons, Tree.leaves_node, List.append_assoc]
  | @advance γ item X _ next inner ih =>
    cases ds with
    | @cons _ tree _ ts first ds =>
      -- the last tree moves back behind the dot
      have whole : List.Forall₂ g.Derivation (item.rest g) (tree :: us) := by
        rw [Item.rest_of_next? next]
        exact .cons first es
      obtain ⟨b, s, z, all, last, rest, reached, ahead, goal, derivation, isEnd, text⟩ := ih ds whole
      refine ⟨b, s, z, all, last, rest, reached.advance next inner, ahead, goal, derivation, isEnd, ?_⟩
      rw [text]
      simp

namespace Parser

variable {engine : Regex.Engine} {p : Parser} {n : Nat} {x : Situation}

section Bound

variable (built : p.WellBuilt) (quiet : p.table.isContested = false)
  (fresh : p.grammar.AcceptFresh)
  (productive : ∀ s, p.grammar.isNonterminal s → p.grammar.Productive s)

include built quiet fresh productive

/-- The trees on the stack are also built in a run that ends, after as many moves. -/
theorem Supported.lasts (supported : p.Supported γ x.stack) : ∃ tokens N stack rest,
    p.Lasts N ⟨[], tokens⟩ ∧ p.Moves x.weight ⟨[], tokens⟩ ⟨stack, rest⟩ ∧
      tokens.length = (Tree.fringe (treesOf x.stack)).length + rest.length := by
  obtain ⟨accept, chosen⟩ := built.accept
  obtain ⟨items, found, item, member⟩ := built.tracks.inhabited chosen supported.path
  obtain ⟨c, reached⟩ := built.tracks.reached γ _ items item supported.path found member
  obtain ⟨us, es⟩ := Grammar.exists_trees productive
    ((⟨item.place, c⟩ : Item).known_rest built.wellFormed)
  obtain ⟨b, s, z, tree, last, rest, reached', ahead, goal, derivation, isEnd, text⟩ :=
    reached.completes built.wellFormed built.closed productive supported.derivations es
  obtain ⟨d, now, begins⟩ := built.closed.ahead built.wellFormed es ahead
  obtain ⟨stack, -, trees, moves, -⟩ :=
    built.moves_of_reached quiet fresh reached' supported.derivations _ now begins
  obtain ⟨t, whole, decided⟩ := built.moves_of_derivation quiet fresh goal derivation isEnd rest
  rw [text] at whole
  have listed : treesOf x.stack = (x.stack.map (·.tree)).reverse := List.map_reverse
  have weight : x.weight = Tree.countAll (x.stack.map (·.tree)) := by
    have counted := moves.weight
    rw [Situation.weight, treesOf, List.map_reverse, trees] at counted
    rw [Situation.weight, listed, counted]
    exact Nat.zero_add _
  refine ⟨_, _, stack, Tree.fringe us ++ z, ⟨_, whole, move_of_accept decided⟩, weight ▸ moves, ?_⟩
  rw [listed, List.length_append]

/-- Every sequence of moves is bounded by the tokens it has shifted. -/
theorem WellBuilt.moves_lt_of_productive {tokens : List Token} (moves : p.Moves n ⟨[], tokens⟩ x)
    {taken : Nat} (total : tokens.length = taken + x.tokens.length) :
    n < (taken + 1) ^ 2 * (p.automaton.size + 1) ^ (p.automaton.size + 1) := by
  obtain ⟨γ, supported⟩ := Supported.nil.moves built moves
  obtain ⟨tokens', N, stack, rest, lasts, moves', total'⟩ :=
    supported.lasts built quiet fresh productive
  have weight : x.weight = n := moves.weight.trans (Nat.zero_add n)
  have text : (Tree.fringe (treesOf x.stack)).length + x.tokens.length = tokens.length := by
    rw [← List.length_append]
    exact congrArg List.length moves.text
  rw [weight] at moves'
  exact built.moves_lt lasts moves' (by rw [total']; dsimp only; omega)

end Bound

/-- Termination: if every nonterminal is productive, a parser without conflicts answers every text,
well-formed or not, with a tree or an error. -/
theorem run_terminates {g : Grammar} {l : Lexer} {settings : Settings} (grammar : g.Built)
    (done : ofGrammar engine g l settings = .ok p) (fresh : p.grammar.AcceptFresh)
    (quiet : p.table.isContested = false)
    (productive : ∀ s, g.isNonterminal s → g.Productive s) (text : String) :
    ∃ outcome, p.runOver (p.lexer.scan text) = some outcome := by
  have built := wellBuilt_of_ofGrammar grammar done
  have productive : ∀ s, p.grammar.isNonterminal s → p.grammar.Productive s := by
    obtain ⟨augmented, same⟩ := grammar_of_ofGrammar done
    rw [same]
    exact grammar.wellFormed.productive_augment augmented productive
  have stands := stands_start p.lexer text
  cases ended : p.runOver (p.lexer.scan text) with
  | some outcome => exact ⟨outcome, rfl⟩
  | none =>
    exfalso
    obtain ⟨x, moves⟩ := built.moves_of_running stands ended
    obtain ⟨taken, total⟩ := Nat.exists_eq_add_of_le' (moves.tokens.length_le)
    have bound := built.moves_lt_of_productive quiet fresh productive moves total
    have length : text.toList.length = text.length := String.length_toList
    have enough : p.stepBudget text.toList < p.stepBudget text.toList :=
      lt_stepBudget (length ▸ (p.lexer.reads_scan text).2) (Nat.le.intro total.symm) bound
    exact absurd enough (Nat.lt_irrefl _)

/-- The grammar `S -> a S | b` is productive, so the runs over `ab` and `ba` end: with a tree for
the one, and with an error for the other. -/
theorem run_terminates_chain : ∃ p, ofGrammar .builtIn .chain .empty .standard = .ok p ∧
    (∃ tree c, p.runOver (p.lexer.scan "ab") = some (.accepted tree c)) ∧
    ∃ error c, p.runOver (p.lexer.scan "ba") = some (.failed error c) := by
  obtain ⟨p, done, passed⟩ := exists_of_check (ofGrammar .builtIn .chain .empty .standard)
    (fun p => !p.table.isContested && ((p.treeOf "ab").toOption.isSome &&
      (p.treeOf "ba").toOption.isNone)) (by decide +kernel)
  obtain ⟨quiet, passed⟩ := Bool.and_eq_true_iff.mp passed
  obtain ⟨answers, refuses⟩ := Bool.and_eq_true_iff.mp passed
  obtain ⟨augmented, same⟩ := grammar_of_ofGrammar done
  have fresh : p.grammar.AcceptFresh :=
    same ▸ Grammar.chain_built.wellFormed.acceptFresh_augment rfl augmented
  have ends := run_terminates Grammar.chain_built done fresh (by simpa using quiet)
    Grammar.chain_productive
  refine ⟨p, done, ?_, ?_⟩
  · obtain ⟨outcome, ended⟩ := ends "ab"
    cases outcome with
    | accepted tree c => exact ⟨tree, c, ended⟩
    | failed error c => simp [treeOf, ended, Except.toOption] at answers
  · obtain ⟨outcome, ended⟩ := ends "ba"
    cases outcome with
    | accepted tree c => simp [treeOf, ended, Except.toOption] at refuses
    | failed error c => exact ⟨error, c, ended⟩

end Parser

end ShiftReduce
