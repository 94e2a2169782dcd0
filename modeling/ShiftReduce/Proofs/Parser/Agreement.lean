import ShiftReduce.Proofs.Parser.Completeness

/-!
# Agreement of merged and canonical tables

A merged table may reduce where the canonical one has stopped already. But it never shifts a token
that the canonical parser does not shift, since reached items do not depend on the automaton.
-/
namespace ShiftReduce

/-! ## Conflicts -/

namespace Table

/-- An action without the state it leads to. -/
def shape : Action → Action
  | .shift _ => .shift 0
  | .goto _ => .goto 0
  | act => act

theorem contest_of_shape {c d : Action} (same : shape c = shape d) : c.contest d = none := by
  cases c <;> cases d <;> simp_all [shape, Action.contest]

variable {g : Grammar} {a : Analysis} {m : Automaton} {accept : Nat}

/-- A merged state asks for all that its members ask for. -/
theorem Requested.merge (canonical : m.Canonical g a accept) (wf : g.WellFormed) {s k : Nat}
    (joins : m.Joins s k) {items : ItemSet} (found : m.state? s = some items) {X : Symbol}
    {act : Action} (requested : Requested g m s items X act) :
    ∃ united act', m.merge.state? k = some united ∧ Requested g m.merge k united X act' ∧
      shape act = shape act' := by
  obtain ⟨united, there⟩ := joins.merge_state?
  have inside (item : Item) (member : item ∈ items) : item ∈ united :=
    (Automaton.mem_merge there).mpr ⟨s, items, joins, found, member⟩
  -- an edge may lead to another state, but it is over the same symbol
  have edges {Y : Symbol} {t : Nat} (edge : (Y, t) ∈ m.edgesOf s) :
      ∃ t', (Y, t') ∈ m.merge.edgesOf k := by
    obtain ⟨t', -, edge'⟩ := canonical.target_merge wf joins
      ((Automaton.mem_edgesOf_iff (canonical.edges_nodup s)).mp edge)
    exact ⟨t', (Automaton.mem_edgesOf_iff (Automaton.merge_edges_nodup k)).mpr edge'⟩
  cases requested with
  | shift edge terminal =>
    obtain ⟨t', edge'⟩ := edges edge
    exact ⟨united, _, there, .shift edge' terminal, rfl⟩
  | goto edge nonterminal =>
    obtain ⟨t', edge'⟩ := edges edge
    exact ⟨united, _, there, .goto edge' nonterminal, rfl⟩
  | accept accepting =>
    obtain ⟨item, member, accepts⟩ := List.any_eq_true.mp accepting
    exact ⟨united, _, there, .accept (List.any_eq_true.mpr ⟨item, inside item member, accepts⟩), rfl⟩
  | reduce member completed inner =>
    exact ⟨united, _, there, .reduce (inside _ member) completed inner, rfl⟩

/-- Merging never hides a conflict. -/
theorem isContested_of_merge (canonical : m.Canonical g a accept) (wf : g.WellFormed)
    (chosen : g.accept = some accept) (quiet : (ofAutomaton g m.merge).isContested = false) :
    (ofAutomaton g m).isContested = false := by
  apply isContested_of_same
  intro s items X c d found first second
  obtain ⟨k, joins⟩ := Automaton.exists_joins found
  obtain ⟨united, c', there, first', shapeC⟩ := first.merge canonical wf joins found
  obtain ⟨united', d', there', second', shapeD⟩ := second.merge canonical wf joins found
  cases there.symm.trans there'
  have tracks := canonical.tracks_merge wf chosen
  -- both requests are granted in one cell, so they have one shape
  have heldC := cell?_of_requested wf tracks quiet there first'
  have heldD := cell?_of_requested wf tracks quiet there second'
  cases heldC.symm.trans heldD
  exact first.same_of_contest (canonical.tracks wf chosen) found second
    (contest_of_shape (shapeC.trans shapeD.symm))

end Table

namespace Refusal

/-- A refusal without the terminals that would have been accepted. -/
def bare : Refusal → Refusal
  | unexpectedToken span position found _ => .unexpectedToken span position found []
  | unexpectedEnd span position _ => .unexpectedEnd span position []
  | refusal => refusal

end Refusal

namespace Parser

variable {engine : Regex.Engine} {p q : Parser} {n : Nat} {x y z : Situation}

/-! ## Tokens that are shifted -/

/-- From `x` the parser comes to shift the token in front of `rest`. -/
def Shifts (p : Parser) (x : Situation) (rest : List Token) : Prop :=
  ∃ n stack token t, p.Moves n x ⟨stack, token :: rest⟩ ∧
    p.action (topState stack) token = .shift t

/-- Every token that is taken is shifted. -/
theorem Moves.shifts (moves : p.Moves n x y) {token : Token} {rest : List Token}
    (before : token :: rest <:+ x.tokens) (after : y.tokens.length ≤ rest.length) :
    p.Shifts x rest := by
  induction moves with
  | rest => have := before.length_le; simp at this; omega
  | @more n x y z step _ ih =>
    obtain ⟨first, others, ahead, ⟨t, decided, rfl⟩ | ⟨k, q, t, -, -, -, -, rfl⟩⟩ :=
      move_cases step
    · rw [ahead] at before
      -- either this token is the one, or it is shifted later
      rcases List.suffix_cons_iff.mp before with same | later
      · cases same
        obtain ⟨stack, tokens⟩ := x
        obtain rfl : tokens = token :: rest := ahead
        exact ⟨0, stack, token, t, .rest _, decided⟩
      · obtain ⟨n, stack, token', t', moves, decided'⟩ := ih later after
        exact ⟨n + 1, stack, token', t', .more step moves, decided'⟩
    · obtain ⟨n, stack, token', t', moves, decided'⟩ := ih before after
      exact ⟨n + 1, stack, token', t', .more step moves, decided'⟩

/-- A run ends behind every token that it comes to shift. -/
theorem Shifts.length_le {rest : List Token} (shifts : p.Shifts x rest) (moves : p.Moves n x y)
    (stuck : p.move y = none) : y.tokens.length ≤ rest.length := by
  obtain ⟨k, stack, token, t, first, decided⟩ := shifts
  have all := first.trans (.one (move_of_shift decided))
  exact (all.from_shorter moves (moves.le_of_stuck stuck all)).tokens.length_le

/-- Parsers of one grammar, whatever their automata are. -/
structure Akin (p q : Parser) : Prop where
  grammar : q.grammar = p.grammar
  lexer : q.lexer = p.lexer
  analysis : q.analysis = p.analysis

theorem Akin.symm (akin : Akin p q) : Akin q p :=
  ⟨akin.grammar.symm, akin.lexer.symm, akin.analysis.symm⟩

section Akin

variable (akin : Akin p q) (builtP : p.WellBuilt) (builtQ : q.WellBuilt)
  (fresh : p.grammar.AcceptFresh)

include akin builtP builtQ fresh

/-- A parser without conflicts shifts every token that another parser of its grammar shifts. -/
theorem Akin.shifts (quiet : p.table.isContested = false) {tokens rest : List Token}
    (shifts : q.Shifts ⟨[], tokens⟩ rest) : p.Shifts ⟨[], tokens⟩ rest := by
  obtain ⟨n, stack, token, t, moves, decided⟩ := shifts
  obtain ⟨γ, supported⟩ := Supported.nil.moves builtQ moves
  obtain ⟨X, known, terminal, edge⟩ := builtQ.action_shift decided
  obtain ⟨inner, items, found, item, member, next⟩ := builtQ.tracks.edge _ X t edge
  obtain ⟨x, reached⟩ := builtQ.tracks.reached γ _ items item supported.path found member
  have ds := supported.derivations
  have text : tokens = Tree.fringe (stack.map (·.tree)).reverse ++ token :: rest := by
    rw [← List.map_reverse]
    exact moves.text.symm
  have next' : (⟨item.place, x⟩ : Item).next? q.grammar = some X := next
  rw [akin.grammar] at ds known terminal next'
  rw [akin.grammar, akin.analysis] at reached
  -- the item is reached in every automaton of the grammar, with the same trees on the stack
  have begins : X ∈ p.analysis.beginnings ((⟨item.place, x⟩ : Item).rest p.grammar) (some x) := by
    rw [Item.rest_of_next? next', Begins.mem_beginnings_cons]
    exact Or.inl (builtP.closed.terminal X terminal)
  obtain ⟨stack', items', -, moves', found', member'⟩ :=
    builtP.moves_of_reached quiet fresh reached ds (token :: rest) known begins
  obtain ⟨t', -, edge', -⟩ := builtP.tracks.advance _ items' _ X found' member' next' inner
  rw [← text] at moves'
  exact ⟨_, stack', token, t', moves', builtP.action_of_target quiet edge' terminal known⟩

/-- Where one parser stops, another one without conflicts has not taken more. -/
theorem Akin.length_le (quiet : q.table.isContested = false) {tokens : List Token} {m : Nat}
    (ends : q.Moves n ⟨[], tokens⟩ y) (stuck : q.move y = none) (moves : p.Moves m ⟨[], tokens⟩ z) :
    y.tokens.length ≤ z.tokens.length := by
  by_contra further
  cases ahead : y.tokens with
  | nil => simp [ahead] at further
  | cons token rest =>
    have before : token :: rest <:+ tokens := ahead ▸ ends.tokens
    rw [ahead, List.length_cons] at further
    -- the token was shifted by the one, so it is by the other
    have shifts := akin.symm.shifts builtQ builtP (akin.grammar ▸ fresh) quiet
      (moves.shifts before (by omega))
    have taken := shifts.length_le ends stuck
    rw [ahead, List.length_cons] at taken
    omega

/-- Two parsers of one grammar, the second without conflicts, accept the same trees. -/
theorem Akin.accepts (quiet : q.table.isContested = false) {text : String} {tree : Tree}
    {c : Configuration} (ended : p.runOver (p.lexer.scan text) = some (.accepted tree c)) :
    ∃ d, q.runOver (q.lexer.scan text) = some (.accepted tree d) := by
  obtain ⟨n, s, entry, last, rest, -, moves, -, rfl, isEnd, goal, -, derivation⟩ :=
    builtP.moves_of_accepted fresh ended
  have text : (q.lexer.tokenization text).tokens = entry.tree.leaves ++ last :: rest := by
    rw [akin.lexer]
    simpa [Situation.text, treesOf] using moves.text.symm
  rw [← akin.grammar] at goal derivation fresh
  exact builtQ.accepts_of_derivation quiet fresh goal derivation isEnd text

end Akin

/-- Parsers that fail in front of the same tokens fail in the same way. -/
theorem Ends.bare_eq {source : List Char} {failure : Option Unmatched}
    {stackP stackQ : List StackEntry} {tokens : List Token} {errorP errorQ : Refusal}
    {c d : Configuration} (endsP : p.Ends source failure ⟨stackP, tokens⟩ (.failed errorP c))
    (endsQ : q.Ends source failure ⟨stackQ, tokens⟩ (.failed errorQ d))
    (straightP : ∀ token k, p.action (topState stackP) token = .reduce k →
      p.reduced? k stackP ≠ none)
    (straightQ : ∀ token k, q.action (topState stackQ) token = .reduce k →
      q.reduced? k stackQ ≠ none) : errorP.bare = errorQ.bare := by
  cases endsP with
  | lexer failed =>
    cases endsQ with
    | lexer failed' =>
      cases failed.symm.trans failed'
      rfl
  | stray decided stray => exact absurd stray (straightP _ _ decided)
  | unexpected same =>
    cases endsQ with
    | stray decided stray => exact absurd stray (straightQ _ _ decided)
    | unexpected same' =>
      simp only [Parser.unexpected, Scanner.lineTable, same, same']
      split <;> rfl

/-- Where the parser `q` fails, both without conflicts, `p` takes no more tokens, and fails in the
same way if it ends. -/
theorem Akin.fails (akin : Akin p q) (builtP : p.WellBuilt) (builtQ : q.WellBuilt)
    (fresh : p.grammar.AcceptFresh) (quietP : p.table.isContested = false)
    (quietQ : q.table.isContested = false) {text : String} {error : Refusal} {c : Configuration}
    (failed : q.runOver (q.lexer.scan text) = some (.failed error c)) :
    (∀ d, p.Reaches (.start (p.lexer.scan text)) d → d.counts.tokens ≤ c.counts.tokens) ∧
    ∀ budget outcome, p.run budget (.start (p.lexer.scan text)) = some outcome →
      ∃ error' d, outcome = .failed error' d ∧ error'.bare = error.bare ∧
        d.counts.tokens = c.counts.tokens := by
  have standsP := stands_start p.lexer text
  have standsQ := stands_start q.lexer text
  obtain ⟨n, y, -, movesQ, stuckQ, endsQ, countsQ⟩ := builtQ.moves_of_run standsQ failed
  have startQ : c.counts.tokens + y.tokens.length = 0 + (q.lexer.tokenization text).tokens.length :=
    countsQ
  rw [akin.lexer] at standsQ movesQ endsQ startQ
  constructor
  · intro d reaches
    obtain ⟨m, z, movesP, -, countsP⟩ := builtP.moves_of_reaches standsP reaches
    have startP : d.counts.tokens + z.tokens.length =
      0 + (p.lexer.tokenization text).tokens.length := countsP
    have le := akin.length_le builtP builtQ fresh quietQ movesQ stuckQ movesP
    omega
  · intro budget outcome ended
    obtain ⟨m, z, -, movesP, stuckP, endsP, countsP⟩ := builtP.moves_of_run standsP ended
    have startP : outcome.last.counts.tokens + z.tokens.length =
      0 + (p.lexer.tokenization text).tokens.length := countsP
    have le := akin.length_le builtP builtQ fresh quietQ movesQ stuckQ movesP
    have ge := akin.symm.length_le builtQ builtP (akin.grammar ▸ fresh) quietP movesP stuckP movesQ
    -- both took the same number of tokens from one text
    have same : z.tokens = y.tokens :=
      (List.suffix_of_suffix_length_le movesP.tokens movesQ.tokens ge).eq_of_length (by omega)
    cases outcome with
    | accepted tree d =>
      -- then the other parser would have accepted, too
      obtain ⟨d', accepted⟩ := akin.accepts builtP builtQ fresh quietQ
        (builtP.runOver_eq_some_iff.mpr ⟨budget, ended⟩)
      cases failed.symm.trans accepted
    | failed error' d =>
      obtain ⟨stackP, tokens⟩ := z
      obtain ⟨stackQ, _⟩ := y
      obtain rfl : tokens = _ := same
      obtain ⟨_, supportedP⟩ := Supported.nil.moves builtP movesP
      obtain ⟨_, supportedQ⟩ := Supported.nil.moves builtQ movesQ
      refine ⟨error', d, rfl, endsP.bare_eq endsQ ?_ ?_, ?_⟩
      · exact fun _ _ decided => supportedP.not_stray builtP decided
      · exact fun _ _ decided => supportedQ.not_stray builtQ decided
      · have last : d.counts.tokens = (Outcome.failed error' d).last.counts.tokens := rfl
        omega

/-- Agreement: where merging leaves no conflict, the canonical table has none, and both parsers
answer the same trees. Where the canonical parser fails, the merged one takes no more tokens, and
fails with the same error, up to what it expected, if it ends. -/
theorem merged_agrees {g : Grammar} {l : Lexer} {settings : Settings} (grammar : g.Built)
    (done : ofGrammar engine g l { settings with lalr := true } = .ok p)
    (fresh : p.grammar.AcceptFresh)
    (quiet : p.table.isContested = false) :
    ∃ q, ofGrammar engine g l { settings with lalr := false } = .ok q ∧ q.table.isContested = false ∧
      (∀ text tree, q.treeOf text = .ok tree ↔ p.treeOf text = .ok tree) ∧
      ∀ text error c, q.runOver (q.lexer.scan text) = some (.failed error c) →
        (∀ d, p.Reaches (.start (p.lexer.scan text)) d → d.counts.tokens ≤ c.counts.tokens) ∧
        ∀ budget outcome, p.run budget (.start (p.lexer.scan text)) = some outcome →
          ∃ error' d, outcome = .failed error' d ∧ error'.bare = error.bare ∧
            d.counts.tokens = c.counts.tokens := by
  have builtP := wellBuilt_of_ofGrammar grammar done
  obtain ⟨augmented, lexer, accept, extended, chosen, same, -⟩ := ofGrammar_eq_ok_iff.mp done
  have wf := grammar.wellFormed.augment
  have canonical := Automaton.canonical_spec wf (Begins.analysis_closed wf) chosen
  obtain ⟨q, same'⟩ : ∃ q, q = assembled g.augment.2 lexer accept { settings with lalr := false } :=
    ⟨_, rfl⟩
  have builtQ : q.WellBuilt := same' ▸ wellBuilt_assembled wf chosen
  have quietQ : q.table.isContested = false := by
    simp only [same, assembled, automatonFor, if_true] at quiet
    simp only [same', assembled, automatonFor, Bool.false_eq_true, if_false]
    exact Table.isContested_of_merge canonical wf chosen quiet
  have akin : Akin p q := by
    constructor <;> simp only [same, same', assembled]
  have finishes (tree : Tree) : q.finished tree = p.finished tree := by
    simp only [Parser.finished, same, same', assembled]
  refine ⟨q, ofGrammar_eq_ok_iff.mpr ⟨augmented, lexer, accept, extended, chosen, same', ?_⟩, quietQ,
    fun text tree => ?_, fun text error c failed => ?_⟩
  · rw [quietQ]
    simp
  · rw [treeOf_eq_ok_iff, treeOf_eq_ok_iff]
    constructor
    · rintro ⟨whole, c, ended, finished⟩
      have freshQ : q.grammar.AcceptFresh := akin.grammar ▸ fresh
      obtain ⟨d, accepted⟩ := akin.symm.accepts builtQ builtP freshQ quiet ended
      exact ⟨whole, d, accepted, finishes whole ▸ finished⟩
    · rintro ⟨whole, c, ended, finished⟩
      obtain ⟨d, accepted⟩ := akin.accepts builtP builtQ fresh quietQ ended
      exact ⟨whole, d, accepted, (finishes whole).trans finished⟩
  · exact akin.fails builtP builtQ fresh quiet quietQ failed

/-- Both parsers have one tree for the text `ab`, and refuse `ba` at the same token. -/
theorem merged_agrees_chain : ∃ p q,
    ofGrammar .builtIn .chain .empty { Settings.standard with lalr := true } = .ok p ∧
      ofGrammar .builtIn .chain .empty { Settings.standard with lalr := false } = .ok q ∧
      (∃ tree, q.treeOf "ab" = .ok tree ∧ p.treeOf "ab" = .ok tree) ∧
      ∃ error error' c d, q.runOver (q.lexer.scan "ba") = some (.failed error c) ∧
        p.runOver (p.lexer.scan "ba") = some (.failed error' d) ∧ error'.bare = error.bare := by
  obtain ⟨p, done, passed⟩ := exists_of_check
    (ofGrammar .builtIn .chain .empty { Settings.standard with lalr := true })
    (fun p => !p.table.isContested && (p.runOver (p.lexer.scan "ba")).isSome) (by decide +kernel)
  obtain ⟨quiet, ends⟩ := Bool.and_eq_true_iff.mp passed
  obtain ⟨augmented, same⟩ := grammar_of_ofGrammar done
  have fresh : p.grammar.AcceptFresh :=
    same ▸ Grammar.chain_built.wellFormed.acceptFresh_augment rfl augmented
  obtain ⟨q, done', -, agrees, fails⟩ :=
    merged_agrees Grammar.chain_built done fresh (by simpa using quiet)
  obtain ⟨q', done'', passed'⟩ := exists_of_check
    (ofGrammar .builtIn .chain .empty { Settings.standard with lalr := false })
    (fun q => (q.treeOf "ab").toOption.isSome && ((q.runOver (q.lexer.scan "ba")).isSome &&
      (q.treeOf "ba").toOption.isNone)) (by decide +kernel)
  cases done'.symm.trans done''
  obtain ⟨answers, refuses⟩ := Bool.and_eq_true_iff.mp passed'
  refine ⟨p, q, done, done', ?_, ?_⟩
  · cases answer : q.treeOf "ab" with
    | error e => simp [answer, Except.toOption] at answers
    | ok tree => exact ⟨tree, rfl, (agrees "ab" tree).mp answer⟩
  · obtain ⟨ends', none⟩ := Bool.and_eq_true_iff.mp refuses
    obtain ⟨outcome', ended'⟩ := Option.isSome_iff_exists.mp ends'
    cases outcome' with
    | accepted tree c => simp [treeOf, ended', Except.toOption] at none
    | failed error c =>
      obtain ⟨outcome, ended⟩ := Option.isSome_iff_exists.mp ends
      obtain ⟨error', d, rfl, same, -⟩ := (fails "ba" error c ended').2 _ outcome ended
      exact ⟨error, error', c, d, ended', ended, same⟩

end Parser

end ShiftReduce
