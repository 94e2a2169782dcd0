import ShiftReduce.Proofs.Parser.Moves

/-!
# Soundness

The states on the stack lie on a path of the automaton, and each tree derives from the symbol of its
edge. Shifting and reducing keep this up, and a parser accepts with the tree of one whole text.
-/
namespace ShiftReduce.Parser

variable {engine : Regex.Engine} {p : Parser}

/-- A stack along a path of the automaton: each tree is a tree of the symbol of its edge. -/
inductive Supported (p : Parser) : List Symbol → List StackEntry → Prop
  | nil : Supported p [] []
  | cons {γ : List Symbol} {stack : List StackEntry} {X : Symbol} {t : Nat} {tree : Tree}
      (below : Supported p γ stack) (edge : p.automaton.target? (topState stack) X = some t)
      (derivation : p.grammar.Derivation X tree) : Supported p (X :: γ) (⟨t, tree⟩ :: stack)

variable {γ δ α : List Symbol} {stack : List StackEntry}

theorem Supported.path (supported : p.Supported γ stack) :
    p.automaton.Path γ (topState stack) := by
  induction supported with
  | nil => exact .start
  | cons _ edge _ ih => exact ih.step edge

theorem Supported.derivations (supported : p.Supported γ stack) :
    List.Forall₂ p.grammar.Derivation γ (stack.map (·.tree)) := by
  induction supported with
  | nil => exact .nil
  | cons _ _ derivation ih => exact .cons derivation ih

/-- What lies below the trees of `α`, and these trees in the order of the text. -/
theorem Supported.split (supported : p.Supported (α.reverse ++ δ) stack) :
    α.length ≤ stack.length ∧ p.Supported δ (stack.drop α.length) ∧
      List.Forall₂ p.grammar.Derivation α (treesOf (stack.take α.length)) := by
  have lengths := supported.derivations.length_eq
  rw [List.length_append, List.length_reverse, List.length_map] at lengths
  refine ⟨by omega, ?_, ?_⟩
  · have below (β : List Symbol) {stack : List StackEntry} (supported : p.Supported (β ++ δ) stack) :
        p.Supported δ (stack.drop β.length) := by
      induction β generalizing stack with
      | nil => exact supported
      | cons X β ih =>
        cases supported with
        | cons below => exact ih below
    simpa using below α.reverse supported
  · have above := List.forall₂_take α.length supported.derivations
    rw [List.take_left' (List.length_reverse), ← List.map_take] at above
    -- the stack lists the last tree first
    have turned := List.rel_reverse above
    rwa [List.reverse_reverse, ← List.map_reverse] at turned

/-! ## Reductions -/

section Reduction

variable (built : p.WellBuilt) {items : ItemSet} {item : Item} {q : Production}

include built

theorem WellBuilt.production_of_completed (completed : item.completed? p.grammar = some q) :
    item.production? p.grammar = some q ∧ q.index = item.place.production ∧
      q ∈ p.grammar.productions ∧ q.length ≤ item.place.dot := by
  obtain ⟨found, whole⟩ := Item.completed?_eq_some_iff.mp completed
  exact ⟨found, built.wellFormed.indexed _ q found, Grammar.mem_of_production? found, whole⟩

/-- An item that calls for a production waits for its left-hand side. -/
theorem WellBuilt.next_of_called {caller : Item} {k : Nat} {x : Symbol}
    (found : p.grammar.production? k = some q)
    (called : Item.of k 0 x ∈ caller.expansions p.grammar p.analysis) :
    caller.next? p.grammar = some q.lhs := by
  obtain ⟨X, q', c, next, -, member, rfl, -, same⟩ :=
    (Item.mem_expansions built.wellFormed).mp called
  obtain ⟨rfl, -⟩ := Item.of_injective same
  cases found.symm.trans (built.wellFormed.production?_index member)
  exact next

/-- The state below a reached right-hand side has an edge over its left-hand side: the item that
called for the production is there. -/
theorem WellBuilt.edge_below {x : Symbol} (found : p.grammar.production? item.place.production = some q)
    (inner : p.grammar.accept ≠ some q.index)
    (origin : Reached p.grammar p.analysis δ (.of item.place.production 0 x)) {s : Nat}
    (path : p.automaton.Path δ s) : ∃ t, p.automaton.target? s q.lhs = some t := by
  have index := built.wellFormed.indexed _ q found
  rcases origin.called with ⟨chosen, -⟩ | ⟨caller, reached, called⟩
  · exact absurd (index ▸ chosen) inner
  · have next := built.next_of_called found called
    have proper := built.wellFormed.ne_endOfInput
      (built.wellFormed.isNonterminal_lhs (Grammar.mem_of_production? found))
    -- the item that calls for the production is in the state of its path
    obtain ⟨s', before, path', found', here⟩ := built.tracks.holds reached
    cases path.unique path'
    obtain ⟨t, -, edge, -⟩ := built.tracks.advance s before caller _ found' here next proper
    exact ⟨t, edge⟩

/-- A complete item in the top state finds its right-hand side on the stack and an edge below. -/
theorem Supported.reduction (supported : p.Supported γ stack)
    (found : p.automaton.state? (topState stack) = some items) (member : item ∈ items)
    (completed : item.completed? p.grammar = some q) (inner : p.grammar.accept ≠ some q.index) :
    ∃ δ t, γ = q.rhs.reverse ++ δ ∧ q.length ≤ stack.length ∧
      p.table.goto? (topState (stack.drop q.length)) q.lhs = some t ∧
      p.Supported (q.lhs :: δ)
        (⟨t, .node q (treesOf (stack.take q.length))⟩ :: stack.drop q.length) := by
  obtain ⟨production, index, known, whole⟩ := built.production_of_completed completed
  obtain ⟨x, reached⟩ := built.tracks.reached γ _ items item supported.path found member
  obtain ⟨q', δ, production', bound, rfl, origin⟩ := reached.origin built.wellFormed
  cases production.symm.trans production'
  -- the item is complete, so its whole right-hand side is on the stack
  have all : q.rhs.take item.place.dot = q.rhs := List.take_of_length_le whole
  rw [all] at supported ⊢
  obtain ⟨enough, below, trees⟩ := supported.split
  have index' : p.grammar.production? item.place.production = some q := production
  obtain ⟨t, edge⟩ := built.edge_below index' inner origin below.path
  have nonterminal := built.wellFormed.isNonterminal_lhs known
  have goes : p.table.goto? (topState (stack.drop q.length)) q.lhs = some t :=
    (built.goto?_iff (Grammar.not_isTerminal_of_isNonterminal nonterminal)).mpr edge
  exact ⟨δ, t, rfl, enough, goes, below.cons edge (.node known trees)⟩

end Reduction

/-! ## Moves -/

section Moves

variable (built : p.WellBuilt) {n : Nat} {x y : Situation}

include built

theorem Supported.move (supported : p.Supported γ x.stack) (step : p.move x = some y) :
    ∃ δ, p.Supported δ y.stack := by
  obtain ⟨token, rest, ahead, ⟨t, decided, rfl⟩ | ⟨k, q, t, decided, found, -, goes, rfl⟩⟩ :=
    move_cases step
  · obtain ⟨X, known, terminal, edge⟩ := built.action_shift decided
    have named : token.name = p.grammar.name X :=
      (built.wellFormed.symbol?_iff.mp known).name_eq.symm
    exact ⟨X :: γ, supported.cons edge (.leaf terminal named)⟩
  -- the decision rests on a complete item, whose reduction is the one made
  · obtain ⟨items, item, q', found', member, completed, rfl, inner, -⟩ :=
      built.action_reduce decided
    obtain ⟨-, -, known, -⟩ := built.production_of_completed completed
    cases found.symm.trans (built.wellFormed.production?_index known)
    obtain ⟨δ, t', -, -, goes', supported⟩ :=
      supported.reduction built found' member completed inner
    cases goes.symm.trans goes'
    exact ⟨_, supported⟩

theorem Supported.moves (supported : p.Supported γ x.stack) (moves : p.Moves n x y) :
    ∃ δ, p.Supported δ y.stack := by
  induction moves generalizing γ with
  | rest => exact ⟨γ, supported⟩
  | more step _ ih =>
    obtain ⟨δ, supported⟩ := supported.move built step
    exact ih supported

/-- No reduction goes astray. -/
theorem Supported.not_stray (supported : p.Supported γ stack) {token : Token} {k : Nat}
    (decided : p.action (topState stack) token = .reduce k) : p.reduced? k stack ≠ none := by
  obtain ⟨items, item, q, found, member, completed, rfl, inner, -⟩ := built.action_reduce decided
  obtain ⟨-, -, known, -⟩ := built.production_of_completed completed
  obtain ⟨δ, t, -, enough, goes, -⟩ := supported.reduction built found member completed inner
  simp [reduced?, built.wellFormed.production?_index known, Nat.not_lt.mpr enough, goes]

/-- Only the accept production has the end of the input in it. -/
theorem WellBuilt.accepting_spec {item : Item} (accepting : item.isAccepting p.grammar) :
    ∃ q s, p.grammar.acceptProduction? = some q ∧ q.rhs = [s, .endOfInput] ∧
      p.grammar.isNonterminal s ∧ p.grammar.goal? = some s ∧ item.production? p.grammar = some q ∧
      item.place.dot = 1 := by
  obtain ⟨chosen, next⟩ : p.grammar.accept = some item.place.production ∧
      item.next? p.grammar = some .endOfInput := by simpa [Item.isAccepting] using accepting
  obtain ⟨q, s, found, rhs, nonterminal, goal⟩ := built.wellFormed.goal chosen
  have production : item.production? p.grammar = some q := found
  refine ⟨q, s, by simp [Grammar.acceptProduction?, chosen, found], rhs, nonterminal, goal,
    production, ?_⟩
  have symbol : q.rhs[item.place.dot]? = some .endOfInput := by
    simpa [Item.next?, production] using next
  rw [rhs] at symbol
  generalize item.place.dot = dot at symbol ⊢
  -- the end of the input is the second symbol, behind a nonterminal
  rcases dot with _ | _ | dot
  · have same : s = .endOfInput := by simpa using symbol
    exact absurd same (built.wellFormed.ne_endOfInput nonterminal)
  · rfl
  · simp at symbol

/-- A parser accepts with one tree of the goal on the stack, if nothing calls for the accept
production. -/
theorem Supported.accepted (supported : p.Supported γ stack) (fresh : p.grammar.AcceptFresh)
    {token : Token} (decided : p.action (topState stack) token = .accept) :
    ∃ s entry, p.grammar.goal? = some s ∧ stack = [entry] ∧ p.grammar.Derivation s entry.tree ∧
      p.grammar.isNonterminal s ∧ token.isEnd := by
  obtain ⟨items, found, accepts, known⟩ := built.action_accept decided
  have last : token.isEnd := by
    simpa [Token.isEnd] using built.wellFormed.symbol?_eq_endOfInput_iff.mp known
  obtain ⟨item, member, accepting⟩ := List.any_eq_true.mp accepts
  obtain ⟨q, s, chosen, rhs, nonterminal, goal, production, dot⟩ := built.accepting_spec accepting
  obtain ⟨x, reached⟩ := built.tracks.reached γ _ items item supported.path found member
  obtain ⟨q', δ, production', -, rfl, origin⟩ := reached.origin built.wellFormed
  cases production.symm.trans production'
  -- nothing calls for the accept production, so it begins at the bottom of the stack
  have bottom : δ = [] := by
    rcases origin.called with ⟨-, bottom⟩ | ⟨caller, -, called⟩
    · exact bottom
    · have next := built.next_of_called production called
      obtain ⟨r, found', symbol⟩ := Option.bind_eq_some_iff.mp next
      exact absurd (List.mem_of_getElem? symbol)
        (fresh q chosen r (Grammar.mem_of_production? found'))
  subst bottom
  have trees : List.Forall₂ p.grammar.Derivation [s] (stack.map (·.tree)) := by
    simpa [dot, rhs] using supported.derivations
  rcases stack with _ | ⟨entry, below⟩
  · cases trees
  · cases trees with
    | cons derivation rest =>
      have alone : below = [] := List.map_eq_nil_iff.mp (List.forall₂_nil_left_iff.mp rest)
      exact ⟨s, entry, goal, by rw [alone], derivation, nonterminal, last⟩

end Moves

/-! ## Accepted texts -/

section Texts

variable (built : p.WellBuilt) (fresh : p.grammar.AcceptFresh)

include built fresh

/-- The situation in which a text is accepted: the tree alone on the stack, in front of the end. -/
theorem WellBuilt.moves_of_accepted {text : String} {budget : Nat} {tree : Tree}
    {c : Configuration} (ended : p.run budget (.start (p.lexer.scan text)) = some (.accepted tree c)) :
    ∃ n s entry last rest, n < budget ∧
      p.Moves n ⟨[], (p.lexer.tokenization text).tokens⟩ ⟨[entry], last :: rest⟩ ∧
      p.action entry.state last = .accept ∧ entry.tree = tree ∧ last.isEnd ∧
      p.grammar.goal? = some s ∧ p.grammar.isNonterminal s ∧ p.grammar.Derivation s tree := by
  obtain ⟨n, y, bound, moves, -, ends, -⟩ := built.moves_of_run (stands_start p.lexer text) ended
  cases ends with
  | @accepted entry below last rest _ decided =>
    obtain ⟨γ, supported⟩ := Supported.nil.moves built moves
    obtain ⟨s, _, goal, ⟨⟩, derivation, nonterminal, isEnd⟩ :=
      supported.accepted built fresh decided
    exact ⟨n, s, _, last, rest, bound, moves, decided, rfl, isEnd, goal, nonterminal, derivation⟩

/-- An accepted text is the text of a tree of the goal. -/
theorem WellBuilt.tree_of_accepted (unreserved : ∀ rule ∈ p.lexer.ruleList, rule.name ≠ endName)
    {text : String} {budget : Nat} {tree : Tree} {c : Configuration}
    (ended : p.run budget (.start (p.lexer.scan text)) = some (.accepted tree c)) :
    ∃ s last, p.grammar.goal? = some s ∧ p.grammar.isNonterminal s ∧ p.grammar.Derivation s tree ∧
      last.isEnd ∧ p.lexer.tokens text = .ok (tree.leaves ++ [last]) := by
  obtain ⟨n, s, entry, last, rest, -, moves, -, rfl, isEnd, goal, nonterminal, derivation⟩ :=
    built.moves_of_accepted fresh ended
  have text : entry.tree.leaves ++ last :: rest = (p.lexer.tokenization text).tokens := by
    simpa [Situation.text, treesOf] using moves.text
  -- no rule makes an end of the input, so what follows the tree is the end itself
  obtain ⟨rfl, failure⟩ := (p.lexer.reads_scan _).1.last_of_isEnd rfl unreserved text.symm isEnd
  exact ⟨s, last, goal, nonterminal, derivation, isEnd, Lexer.tokens_eq_ok_iff.mpr
    ⟨failure, text.symm⟩⟩

omit built fresh in
theorem treeOf_eq_ok_iff {text : String} {tree : Tree} : p.treeOf text = .ok tree ↔
    ∃ whole c, p.runOver (p.lexer.scan text) = some (.accepted whole c) ∧
      p.finished whole = tree := by
  unfold treeOf
  cases ended : p.runOver (p.lexer.scan text) with
  | none => simp
  | some outcome => cases outcome <;> simp

end Texts

/-- Soundness: a tree is only ever answered for a text that is, token by token, the fringe of that
tree, and the tree is a derivation tree of the goal. A grammar that is augmented here has its start
symbol as the goal, and nothing calls for its accept production. -/
theorem treeOf_sound {g : Grammar} {l : Lexer} {settings : Settings} (grammar : g.Built)
    (lexer : l.Built) (done : ofGrammar engine g l settings = .ok p) :
    (g.accept = none → p.grammar.AcceptFresh ∧ p.grammar.goal? = g.startSymbol?) ∧
    (p.grammar.AcceptFresh → settings.splice = false → ∀ text tree, p.treeOf text = .ok tree →
      ∃ s q cs last, p.grammar.goal? = some s ∧ tree = .node q cs ∧ q.lhs = s ∧
        p.grammar.Derivation s tree ∧ last.isEnd ∧
        p.lexer.tokens text = .ok (tree.leaves ++ [last])) := by
  constructor
  · intro unset
    obtain ⟨augmented, _, _, -, -, rfl, -⟩ := ofGrammar_eq_ok_iff.mp done
    exact ⟨grammar.wellFormed.acceptFresh_augment unset augmented,
      grammar.wellFormed.goal?_augment unset augmented⟩
  · intro fresh whole text tree answered
    have built := wellBuilt_of_ofGrammar grammar done
    have unreserved := (built_lexer_of_ofGrammar lexer done).unreserved
    have plain : p.settings.splice = false := settings_of_ofGrammar done ▸ whole
    obtain ⟨found, c, ended, finished⟩ := treeOf_eq_ok_iff.mp answered
    obtain rfl : found = tree := by simpa [Parser.finished, plain] using finished
    obtain ⟨s, last, goal, nonterminal, derivation, isEnd, tokens⟩ :=
      built.tree_of_accepted fresh unreserved ended
    obtain ⟨q, cs, node, lhs, -⟩ := derivation.node_of_isNonterminal nonterminal
    exact ⟨s, q, cs, last, goal, node, lhs, derivation, isEnd, tokens⟩

/-- The text `aab` has a tree, which is a derivation tree. -/
theorem treeOf_sound_chain : ∃ p tree s q cs last,
    ofGrammar .builtIn .chain .empty ⟨true, false, false, false⟩ = .ok p ∧ p.treeOf "aab" = .ok tree ∧
      p.grammar.goal? = some s ∧ tree = .node q cs ∧ q.lhs = s ∧ p.grammar.Derivation s tree ∧
      last.isEnd ∧ p.lexer.tokens "aab" = .ok (tree.leaves ++ [last]) := by
  obtain ⟨p, done, passed⟩ := exists_of_check
    (ofGrammar .builtIn .chain .empty ⟨true, false, false, false⟩)
    (fun p => (p.treeOf "aab").toOption.isSome) (by decide +kernel)
  obtain ⟨tree, answered⟩ : ∃ tree, p.treeOf "aab" = .ok tree := by
    cases answer : p.treeOf "aab" with
    | ok tree => exact ⟨tree, rfl⟩
    | error e => simp [answer, Except.toOption] at passed
  have sound := treeOf_sound Grammar.chain_built Lexer.empty_built done
  obtain ⟨s, q, cs, last, rest⟩ := sound.2 (sound.1 rfl).1 rfl "aab" tree answered
  exact ⟨p, tree, s, q, cs, last, done, answered, rest⟩

end ShiftReduce.Parser
