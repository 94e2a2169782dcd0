import ShiftReduce.Proofs.Parser.Budget
import ShiftReduce.Proofs.Parser.Soundness

/-!
# Completeness

Without conflicts a parser builds every derivation tree, one move for each node: behind any stack
whose top state waits for the symbol of the tree, in front of any token that may follow.
-/
namespace ShiftReduce.Parser

variable {engine : Regex.Engine} {p : Parser}

/-! ## Trees -/

/-- In front of a token that may follow, a tree of `X` is built wherever an item waits for `X`. -/
def Builds (p : Parser) (X : Symbol) (tree : Tree) : Prop :=
  ∀ (stack : List StackEntry) (items : ItemSet) (item : Item) (rest : List Token) (c : Symbol)
    (t : Nat), p.automaton.state? (topState stack) = some items → item ∈ items →
    item.next? p.grammar = some X → p.automaton.target? (topState stack) X = some t →
    p.grammar.ahead? rest = some c →
    c ∈ p.analysis.beginnings (item.beyond p.grammar) (some item.lookahead) →
    p.Moves tree.count ⟨stack, tree.leaves ++ rest⟩ ⟨⟨t, tree⟩ :: stack, rest⟩

theorem exists_token {g : Grammar} {rest : List Token} {c : Symbol} (ahead : g.ahead? rest = some c) :
    ∃ token later, rest = token :: later ∧ g.symbol? token.name = some c := by
  cases rest with
  | nil => cases ahead
  | cons token later => exact ⟨token, later, rfl, ahead⟩

section Uncontested

variable (built : p.WellBuilt) (quiet : p.table.isContested = false)

include built

/-- The trees of what is behind a dot are built one after the other, and the dot moves past them. -/
theorem WellBuilt.builds_forest {β : List Symbol} {cs : List Tree}
    (each : List.Forall₂ p.Builds β cs) (ds : List.Forall₂ p.grammar.Derivation β cs)
    (proper : Symbol.endOfInput ∉ β) (stack : List StackEntry) {items : ItemSet} {item : Item}
    {rest : List Token} (found : p.automaton.state? (topState stack) = some items)
    (member : item ∈ items) (behind : item.rest p.grammar = β)
    (ahead : p.grammar.ahead? rest = some item.lookahead) :
    ∃ above after, treesOf above = cs ∧ above.length = cs.length ∧
      p.Moves (Tree.countAll cs) ⟨stack, Tree.fringe cs ++ rest⟩ ⟨above ++ stack, rest⟩ ∧
      p.automaton.state? (topState (above ++ stack)) = some after ∧
      item.skip cs.length ∈ after := by
  induction each generalizing stack items item with
  | nil => exact ⟨[], items, rfl, rfl, .rest _, found, member⟩
  | @cons X tree β cs first _ ih =>
    obtain ⟨next, beyond⟩ := Item.next?_of_rest behind
    rw [List.mem_cons, not_or] at proper
    cases ds with
    | cons _ ds =>
      obtain ⟨t, after, edge, found', moved⟩ :=
        built.tracks.advance _ items item X found member next (Ne.symm proper.1)
      obtain ⟨c, now, begins⟩ := built.closed.ahead built.wellFormed ds ahead
      -- the first tree, in front of the leaves of the others
      have one := first stack items item (Tree.fringe cs ++ rest) c t found member next edge now
        (beyond.symm ▸ begins)
      obtain ⟨above, last, trees, length, others, found'', done⟩ :=
        ih ds proper.2 (⟨t, tree⟩ :: stack) found' moved
          ((Item.rest_advance item _).trans beyond) ahead
      refine ⟨above ++ [⟨t, tree⟩], last, ?_, ?_, ?_, ?_, ?_⟩
      · simp [← trees, treesOf]
      · simp [length]
      · rw [Tree.fringe_cons, List.append_assoc, List.append_assoc]
        exact one.trans others
      · rw [List.append_assoc]
        exact found''
      · rw [List.length_cons, ← Item.skip_advance]
        exact done

/-- Where an item waits for its left-hand side, a production does not accept. -/
theorem WellBuilt.ne_accept_of_next (fresh : p.grammar.AcceptFresh) {item : Item} {q : Production}
    (known : q ∈ p.grammar.productions) (next : item.next? p.grammar = some q.lhs) :
    p.grammar.accept ≠ some q.index := by
  intro chosen
  have accepting : p.grammar.acceptProduction? = some q := by
    rw [Grammar.acceptProduction?, chosen]
    exact built.wellFormed.production?_index known
  obtain ⟨r, found, symbol⟩ := Option.bind_eq_some_iff.mp next
  exact fresh q accepting r (Grammar.mem_of_production? found) (List.mem_of_getElem? symbol)

include quiet

theorem WellBuilt.builds (fresh : p.grammar.AcceptFresh) {X : Symbol} {tree : Tree}
    (derivation : p.grammar.Derivation X tree) : p.Builds X tree := by
  refine derivation.induct ?leaf ?node
  case leaf =>
    intro X token terminal named stack items item rest c t _ _ _ edge _ _
    have known := (Grammar.Derivation.leaf terminal named).symbol? built.wellFormed
    have decided := built.action_of_target quiet edge terminal known
    rw [Tree.leaves_leaf]
    exact .one (move_of_shift decided)
  case node =>
    intro q cs known ds each stack items item rest c t found member next edge ahead begins
    have inner := built.ne_accept_of_next fresh known next
    have production := built.wellFormed.production?_index known
    have nonterminal := built.wellFormed.isNonterminal_lhs known
    -- the state calls for the production, with the token ahead as its lookahead
    have called : Item.of q.index 0 c ∈ items :=
      built.tracks.expand _ items found item member _ ((Item.mem_expansions built.wellFormed).mpr
        ⟨q.lhs, q, c, next, nonterminal, known, rfl, begins, rfl⟩)
    have behind := Item.rest_of built.wellFormed known c
    have proper : Symbol.endOfInput ∉ q.rhs := fun occurs =>
      inner (built.wellFormed.ends q known occurs)
    obtain ⟨above, after, trees, length, moves, found', done⟩ :=
      built.builds_forest each ds proper stack found called behind ahead
    have whole : cs.length = q.length := ds.length_eq.symm
    have completed : ((Item.of q.index 0 c).skip cs.length).completed? p.grammar = some q := by
      simp [Item.completed?, Item.production?, Item.skip, Item.of, production, whole]
    obtain ⟨token, later, rfl, symbol⟩ := exists_token ahead
    have decided := built.action_of_complete quiet found' done completed inner symbol
    have goes : p.table.goto? (topState stack) q.lhs = some t :=
      (built.goto?_iff (Grammar.not_isTerminal_of_isNonterminal nonterminal)).mpr edge
    -- what lies above the stack is exactly the right-hand side
    have popped : above.length = q.length := length.trans whole
    have below : (above ++ stack).drop q.length = stack := List.drop_left' popped
    have step := move_of_reduce later decided production
      (by rw [List.length_append]; omega) (below.symm ▸ goes)
    rw [below, List.take_left' popped, trees] at step
    rw [Tree.leaves_node, Tree.count]
    exact moves.trans (.one step)

/-! ## Reached items -/

/-- The trees of the symbols that lead to an item are built, in front of a token that the item
expects; the item is then in the top state. -/
theorem WellBuilt.moves_of_reached (fresh : p.grammar.AcceptFresh) {γ : List Symbol} {item : Item}
    (reached : Reached p.grammar p.analysis γ item) {ts : List Tree}
    (ds : List.Forall₂ p.grammar.Derivation γ ts) (rest : List Token) {c : Symbol}
    (ahead : p.grammar.ahead? rest = some c)
    (begins : c ∈ p.analysis.beginnings (item.rest p.grammar) (some item.lookahead)) :
    ∃ stack items, stack.map (·.tree) = ts ∧
      p.Moves (Tree.countAll ts) ⟨[], Tree.fringe ts.reverse ++ rest⟩ ⟨stack, rest⟩ ∧
      p.automaton.state? (topState stack) = some items ∧ item ∈ items := by
  induction reached generalizing ts rest c with
  | start chosen =>
    cases ds
    obtain ⟨items, found, member⟩ := built.tracks.start _ chosen
    exact ⟨[], items, rfl, .rest _, found, member⟩
  | @expand γ item added _ called ih =>
    obtain ⟨X, q, b, next, nonterminal, known, rfl, follows, rfl⟩ :=
      (Item.mem_expansions built.wellFormed).mp called
    rw [Item.rest_of built.wellFormed known] at begins
    -- what the production expects, the item that calls for it expects too
    have expected : c ∈ p.analysis.beginnings (item.rest p.grammar) (some item.lookahead) := by
      rw [Item.rest_of_next? next, Begins.mem_beginnings_cons]
      rcases built.closed.left known begins with first | ⟨nullable, rfl⟩
      · exact Or.inl first
      · exact Or.inr ⟨nullable, follows⟩
    obtain ⟨stack, items, trees, moves, found, member⟩ := ih ds rest ahead expected
    exact ⟨stack, items, trees, moves, found, built.tracks.expand _ items found item member _ called⟩
  | @advance γ item X _ next inner ih =>
    cases ds with
    | @cons _ tree _ ts derivation ds =>
      rw [Item.rest_advance] at begins
      have begins : c ∈ p.analysis.beginnings (item.beyond p.grammar) (some item.lookahead) := begins
      obtain ⟨d, now, first⟩ :=
        built.closed.ahead built.wellFormed (.cons derivation .nil) ahead
      rw [Tree.fringe_cons, Tree.fringe_nil, List.append_nil] at now
      have expected : d ∈ p.analysis.beginnings (item.rest p.grammar) (some item.lookahead) := by
        rw [Item.rest_of_next? next, Begins.mem_beginnings_cons]
        rcases Begins.mem_beginnings_cons.mp first with first | ⟨nullable, follows⟩
        · exact Or.inl first
        · rw [Begins.mem_beginnings_nil, Option.some.injEq] at follows
          exact Or.inr ⟨nullable, follows ▸ begins⟩
      obtain ⟨stack, items, trees, moves, found, member⟩ := ih ds _ now expected
      obtain ⟨t, after, edge, found', moved⟩ :=
        built.tracks.advance _ items item X found member next inner
      -- the trees before it are built already, the last one is built on them
      have last := built.builds quiet fresh derivation stack items item rest c t found member next
        edge ahead begins
      refine ⟨⟨t, tree⟩ :: stack, after, by rw [List.map_cons, trees], ?_, found', moved⟩
      have count : Tree.countAll (tree :: ts) = Tree.countAll ts + tree.count := by
        rw [Tree.countAll, Nat.add_comm]
      have text : Tree.fringe (tree :: ts).reverse ++ rest =
          Tree.fringe ts.reverse ++ (tree.leaves ++ rest) := by
        simp
      rw [count, text]
      exact moves.trans last

/-- Every tree of the goal is built and accepted in front of the end. -/
theorem WellBuilt.moves_of_derivation (fresh : p.grammar.AcceptFresh) {s : Symbol}
    (goal : p.grammar.goal? = some s) {tree : Tree} (derivation : p.grammar.Derivation s tree)
    {last : Token} (isEnd : last.isEnd) (rest : List Token) : ∃ t,
    p.Moves tree.count ⟨[], tree.leaves ++ last :: rest⟩ ⟨[⟨t, tree⟩], last :: rest⟩ ∧
      p.action t last = .accept := by
  obtain ⟨n, chosen⟩ := built.accept
  obtain ⟨q, s', found, rhs, nonterminal, goal'⟩ := built.wellFormed.goal chosen
  cases goal.symm.trans goal'
  have next : (Item.of n 0 .endOfInput).next? p.grammar = some s := by
    simp [Item.next?, Item.production?, Item.of, found, rhs]
  have proper := built.wellFormed.ne_endOfInput nonterminal
  -- the dot of the accept production in front of the end of the input
  have reached := (Reached.start (a := p.analysis) chosen).advance next proper
  have known : p.grammar.symbol? last.name = some .endOfInput :=
    built.wellFormed.symbol?_eq_endOfInput_iff.mpr (by simpa [Token.isEnd] using isEnd)
  have begins : Symbol.endOfInput ∈ p.analysis.beginnings
      ((Item.of n 0 .endOfInput).advance.rest p.grammar) (some .endOfInput) := by
    have behind : (Item.of n 0 .endOfInput).advance.rest p.grammar = [.endOfInput] := by
      simp [Item.rest, Item.production?, Item.of, Item.advance, found, rhs]
    rw [behind]
    exact Begins.mem_beginnings_cons.mpr
      (Or.inl (built.closed.terminal _ built.wellFormed.isTerminal_endOfInput))
  obtain ⟨stack, items, trees, moves, found', member⟩ :=
    built.moves_of_reached quiet fresh reached (.cons derivation .nil) (last :: rest) known begins
  obtain ⟨entry, alone, rfl⟩ : ∃ entry, stack = [entry] ∧ entry.tree = tree := by
    rcases stack with _ | ⟨entry, _ | ⟨other, below⟩⟩ <;> simp_all
  subst alone
  have accepting : (Item.of n 0 .endOfInput).advance.isAccepting p.grammar := by
    simp [Item.isAccepting, Item.advance, Item.of, chosen, Item.next?, Item.production?, found, rhs]
  have decided := built.action_of_accepting quiet (n := entry.state) found'
    (List.any_eq_true.mpr ⟨_, member, accepting⟩) known
  exact ⟨entry.state, by simpa [Tree.countAll] using moves, decided⟩

/-! ## Texts -/

/-- The parser accepts a text that begins with the fringe of a tree of the goal and an end. -/
theorem WellBuilt.accepts_of_derivation (fresh : p.grammar.AcceptFresh) {s : Symbol}
    (goal : p.grammar.goal? = some s) {tree : Tree} (derivation : p.grammar.Derivation s tree)
    {last : Token} (isEnd : last.isEnd) {rest : List Token} {text : String}
    (tokens : (p.lexer.tokenization text).tokens = tree.leaves ++ last :: rest) :
    ∃ c, p.runOver (p.lexer.scan text) = some (.accepted tree c) := by
  obtain ⟨t, moves, decided⟩ := built.moves_of_derivation quiet fresh goal derivation isEnd rest
  rw [← tokens] at moves
  obtain ⟨outcome, ended, how⟩ := built.run_of_stuck (stands_start p.lexer text) moves
    (move_of_accept decided) (Nat.lt_succ_self _)
  obtain ⟨c, rfl⟩ := how.of_accept decided
  exact ⟨c, built.runOver_eq_some_iff.mpr ⟨_, ended⟩⟩

/-- The goal has at most one tree for each sequence of tokens. -/
theorem WellBuilt.derivation_unique (fresh : p.grammar.AcceptFresh) {s : Symbol}
    (goal : p.grammar.goal? = some s) {t u : Tree} (first : p.grammar.Derivation s t)
    (second : p.grammar.Derivation s u) (same : t.leaves = u.leaves) : t = u := by
  have isEnd : (Token.endAt 0).isEnd := by simp [Token.isEnd, Token.endAt]
  obtain ⟨_, movesT, decidedT⟩ := built.moves_of_derivation quiet fresh goal first isEnd []
  obtain ⟨_, movesU, decidedU⟩ := built.moves_of_derivation quiet fresh goal second isEnd []
  rw [same] at movesT
  have ends := movesT.unique_of_stuck (move_of_accept decidedT) movesU (move_of_accept decidedU)
  have tops := congrArg (fun x : Situation => x.stack.map (·.tree)) ends
  simpa using tops

end Uncontested

/-- Completeness: without conflicts every derivation tree of the goal is what the parser answers for
its text. So every sentence has a tree, and no two trees have the same tokens. -/
theorem treeOf_complete {g : Grammar} {l : Lexer} {settings : Settings} (grammar : g.Built)
    (done : ofGrammar engine g l settings = .ok p) (fresh : p.grammar.AcceptFresh)
    (quiet : p.table.isContested = false) :
    (∀ text ts last s tree, p.lexer.tokens text = .ok (ts ++ [last]) → last.isEnd →
      p.grammar.goal? = some s → p.grammar.Derivation s tree → tree.leaves = ts →
      (∃ c, p.runOver (p.lexer.scan text) = some (.accepted tree c)) ∧
        (settings.splice = false → p.treeOf text = .ok tree)) ∧
    (∀ text ts last s word, p.lexer.tokens text = .ok (ts ++ [last]) → last.isEnd →
      p.grammar.goal? = some s → p.grammar.Derives [s] word → (∀ c ∈ word, p.grammar.isTerminal c) →
      List.Forall₂ (fun c token => token.name = p.grammar.name c) word ts →
      ∃ tree, p.treeOf text = .ok tree) ∧
    (∀ s t u, p.grammar.goal? = some s → p.grammar.Derivation s t → p.grammar.Derivation s u →
      t.leaves = u.leaves → t = u) := by
  have built := wellBuilt_of_ofGrammar grammar done
  have accepts (text : String) (last : Token) (s : Symbol) (tree : Tree)
      (tokens : p.lexer.tokens text = .ok (tree.leaves ++ [last])) (isEnd : last.isEnd)
      (goal : p.grammar.goal? = some s) (derivation : p.grammar.Derivation s tree) :
      ∃ c, p.runOver (p.lexer.scan text) = some (.accepted tree c) :=
    built.accepts_of_derivation quiet fresh goal derivation isEnd
      (Lexer.tokens_eq_ok_iff.mp tokens).2
  refine ⟨?each, ?sentence, ?unique⟩
  case each =>
    intro text ts last s tree tokens isEnd goal derivation leaves
    obtain ⟨c, ended⟩ := accepts text last s tree (leaves ▸ tokens) isEnd goal derivation
    refine ⟨⟨c, ended⟩, fun whole => treeOf_eq_ok_iff.mpr ⟨tree, c, ended, ?_⟩⟩
    rw [finished, settings_of_ofGrammar done, whole]
    rfl
  case sentence =>
    intro text ts last s word tokens isEnd goal derives terminals named
    obtain ⟨trees, ds, fringe⟩ := derives.trees terminals named
    cases ds with
    | @cons _ tree _ _ derivation none =>
      cases none
      have leaves : tree.leaves = ts := by simpa using fringe
      obtain ⟨c, ended⟩ := accepts text last s tree (leaves ▸ tokens) isEnd goal derivation
      exact ⟨p.finished tree, treeOf_eq_ok_iff.mpr ⟨tree, c, ended, rfl⟩⟩
  case unique =>
    intro s t u goal first second same
    exact built.derivation_unique quiet fresh goal first second same

/-- The text `b` is a sentence, so it has a tree. -/
theorem treeOf_complete_chain : ∃ p tree, ofGrammar .builtIn .chain .empty .standard = .ok p ∧
    p.treeOf "b" = .ok tree := by
  obtain ⟨p, done, passed⟩ := exists_of_check (ofGrammar .builtIn .chain .empty .standard)
    (fun p => !p.table.isContested && (p.lexer.tokens "b").toOption.any
      (·.map (fun token => (token.name, token.isEnd)) = [("b", false), (endName, true)]))
    (by decide +kernel)
  obtain ⟨augmented, same⟩ := grammar_of_ofGrammar done
  have fresh : p.grammar.AcceptFresh :=
    same ▸ Grammar.chain_built.wellFormed.acceptFresh_augment rfl augmented
  obtain ⟨quiet, read⟩ := Bool.and_eq_true_iff.mp passed
  obtain ⟨ts, tokens, listed⟩ := exists_of_check _ _ read
  obtain ⟨token, last, rfl, named, isEnd⟩ :
      ∃ token last, ts = [token, last] ∧ token.name = "b" ∧ last.isEnd := by
    rcases ts with _ | ⟨token, _ | ⟨last, _ | ⟨other, rest⟩⟩⟩ <;> simp_all
  have complete := treeOf_complete Grammar.chain_built done fresh (by simpa using quiet)
  rw [same] at complete
  have step : Grammar.chain.augment.2.Rewrites [⟨1⟩] [⟨3⟩] :=
    .replace [] [] (show ⟨1, ⟨1⟩, "S", [⟨3⟩], ["b"], false⟩ ∈ _ by decide +kernel)
  obtain ⟨tree, answered⟩ := complete.2.1 "b" [token] last ⟨1⟩ [⟨3⟩] tokens isEnd
    (by decide +kernel) (.single step) (by decide +kernel)
    (.cons (named.trans (by decide +kernel)) .nil)
  exact ⟨p, tree, done, answered⟩

end ShiftReduce.Parser
