import ShiftReduce.Proofs.Parser.Safety
import ShiftReduce.Proofs.Parser.Viability

/-!
# Refusals of canonical parsers

A canonical parser without conflicts does not even reduce in front of a token that no sentence goes
on with. So it stops in the state behind the last token it has shifted, and the terminals that this
state has an action for are those that may come there.
-/
namespace ShiftReduce

namespace Grammar

variable {g : Grammar} {s : Symbol} {tokens : List Token} {token : Token}

/-- Tokens that are no ends lie in front of the end of a text. -/
theorem leaves_of_text {leaves behind rest : List Token} {last : Token}
    (proper : ∀ t ∈ tokens, ¬ t.isEnd) (isEnd : last.isEnd)
    (text : leaves ++ last :: rest = tokens ++ behind) :
    ∃ more, leaves = tokens ++ more ∧ more ++ last :: rest = behind := by
  rcases List.append_eq_append_iff.mp text with ⟨front, same, later⟩ | ⟨more, same, later⟩
  · rcases front with _ | ⟨first, front⟩
    · exact ⟨[], by simpa using same.symm, later⟩
    -- the end would be one of the tokens
    · cases later
      exact absurd isEnd (proper last (by simp [same]))
  · exact ⟨more, same, later.symm⟩

theorem opens_of_viable (goal : g.goal? = some s) (proper : ∀ t ∈ tokens, ¬ t.isEnd)
    {more : List Token} (viable : Viable g (tokens ++ more) token) :
    g.Opens s (tokens.map (·.name)) := by
  obtain ⟨s', tree, last, rest, later, goal', derivation, isEnd, text⟩ := viable
  cases goal.symm.trans goal'
  rw [List.append_assoc] at text
  obtain ⟨others, same, -⟩ := leaves_of_text proper isEnd text
  refine ⟨others.map (·.name), ?_⟩
  simpa [same] using derivation.mem_sentences

/-- Behind tokens that are no ends, a viable token is another leaf of a tree, or ends the text. -/
theorem WellFormed.viable_cases (wf : g.WellFormed) (fresh : g.AcceptFresh)
    (goal : g.goal? = some s) (proper : ∀ t ∈ tokens, ¬ t.isEnd) (viable : Viable g tokens token) :
    ∃ tree, g.Derivation s tree ∧ (token.isEnd ∧ tree.leaves = tokens ∨
      ¬ token.isEnd ∧ ∃ more, tree.leaves = tokens ++ token :: more) := by
  obtain ⟨s', tree, last, rest, more, goal', derivation, isEnd, text⟩ := viable
  cases goal.symm.trans goal'
  have leaves := wf.not_isEnd_of_goal fresh goal derivation
  obtain ⟨front, same, behind⟩ := leaves_of_text proper isEnd text
  refine ⟨tree, derivation, ?_⟩
  rcases front with _ | ⟨first, front⟩
  · cases behind
    exact Or.inl ⟨isEnd, by simpa using same⟩
  · cases behind
    exact Or.inr ⟨leaves token (by simp [same]), front, same⟩

theorem WellFormed.viable_end_iff (wf : g.WellFormed) (fresh : g.AcceptFresh)
    (goal : g.goal? = some s) (proper : ∀ t ∈ tokens, ¬ t.isEnd) (last : token.isEnd) :
    Viable g tokens token ↔ tokens.map (·.name) ∈ g.sentences s := by
  constructor
  · intro viable
    obtain ⟨tree, derivation, ⟨-, same⟩ | ⟨other, -⟩⟩ := wf.viable_cases fresh goal proper viable
    · exact same ▸ derivation.mem_sentences
    · exact absurd last other
  · intro member
    obtain ⟨tree, derivation, same⟩ := exists_tree_of_mem_sentences member
    exact ⟨s, tree, token, [], [], goal, derivation, last, by rw [same]⟩

theorem WellFormed.viable_iff (wf : g.WellFormed) (fresh : g.AcceptFresh)
    (goal : g.goal? = some s) (proper : ∀ t ∈ tokens, ¬ t.isEnd) (inner : ¬ token.isEnd) :
    Viable g tokens token ↔ g.Opens s (tokens.map (·.name) ++ [token.name]) := by
  constructor
  · intro viable
    obtain ⟨tree, derivation, ⟨last, -⟩ | ⟨-, more, same⟩⟩ := wf.viable_cases fresh goal proper viable
    · exact absurd last inner
    · refine ⟨more.map (·.name), ?_⟩
      simpa [same] using derivation.mem_sentences
  · rintro ⟨names, member⟩
    -- the names behind the token are names of some tokens
    let more := names.map fun name => { Token.endAt 0 with name }
    have named : (tokens ++ token :: more).map (·.name) ∈ g.sentences s := by
      simpa [more, Function.comp_def] using member
    obtain ⟨tree, derivation, same⟩ := exists_tree_of_mem_sentences named
    exact ⟨s, tree, Token.endAt 0, [], more ++ [Token.endAt 0], goal, derivation,
      by simp [Token.isEnd, Token.endAt], by simp [same]⟩

end Grammar

namespace Parser

variable {engine : Regex.Engine} {p : Parser} {n : Nat} {x y : Situation} {taken : List Token}

/-! ## The last shift -/

/-- No end of the input is shifted. -/
theorem Moves.not_isEnd (built : p.WellBuilt) (moves : p.Moves n x y)
    (text : x.tokens = taken ++ y.tokens) : ∀ token ∈ taken, ¬ token.isEnd := by
  induction moves generalizing taken with
  | rest x => simp [List.self_eq_append_left.mp text]
  | more step later ih =>
    obtain ⟨first, rest, ahead, ⟨t, decided, rfl⟩ | ⟨k, q, t, -, -, -, -, rfl⟩⟩ := move_cases step
    · rcases taken with _ | ⟨token, taken⟩
      · simp
      · rw [ahead] at text
        cases text
        intro other member
        rcases List.mem_cons.mp member with rfl | member
        · exact fun last => built.not_shift_end last decided
        · exact ih rfl other member
    · exact ih text

/-- Moves that take some tokens come to a point behind the last of them, on which what follows has
no influence, and reduce from there. -/
theorem Moves.settle (moves : p.Moves n x y) (text : x.tokens = taken ++ y.tokens) :
    ∃ i j stack, (∀ rest, p.Moves i ⟨x.stack, taken ++ rest⟩ ⟨stack, rest⟩) ∧
      p.Moves j ⟨stack, y.tokens⟩ y := by
  induction moves generalizing taken with
  | rest x =>
    rw [List.self_eq_append_left.mp text]
    exact ⟨0, 0, x.stack, fun rest => .rest _, .rest x⟩
  | @more n x y z step later ih =>
    rcases taken with _ | ⟨token, taken⟩
    · obtain ⟨stack, tokens⟩ := x
      cases (show tokens = z.tokens from text)
      exact ⟨0, n + 1, stack, fun rest => .rest _, .more step later⟩
    obtain ⟨first, others, ahead, ⟨t, decided, rfl⟩ | ⟨k, q, t, decided, found, enough, goes, rfl⟩⟩ :=
      move_cases step
    · rw [ahead] at text
      cases text
      obtain ⟨i, j, stack, moves, reductions⟩ := ih rfl
      exact ⟨i + 1, j, stack, fun rest => .more (move_of_shift decided) (moves rest), reductions⟩
    · obtain ⟨i, j, stack, moves, reductions⟩ := ih text
      rw [ahead] at text
      cases text
      refine ⟨i + 1, j, stack, fun rest => ?_, reductions⟩
      exact .more (move_of_reduce _ decided found enough goes) (moves rest)

/-- Moves that take no token only depend on the one ahead. -/
theorem Moves.reductions (moves : p.Moves n x y) {token : Token} {rest : List Token}
    (before : x.tokens = token :: rest) (after : y.tokens = token :: rest) (other : List Token) :
    p.Moves n ⟨x.stack, token :: other⟩ ⟨y.stack, token :: other⟩ := by
  induction moves with
  | rest => exact .rest _
  | more step later ih =>
    obtain ⟨first, others, ahead, ⟨t, -, rfl⟩ | ⟨k, q, t, decided, found, enough, goes, rfl⟩⟩ :=
      move_cases step
    all_goals
      rw [before] at ahead
      cases ahead
    · have shorter := later.tokens.length_le
      simp [after] at shorter
    · exact .more (move_of_reduce other decided found enough goes) (ih before after)

theorem move_eq_none {stack : List StackEntry} {token : Token} {rest : List Token}
    (stuck : p.move ⟨stack, token :: rest⟩ = none) (other : List Token) :
    p.move ⟨stack, token :: other⟩ = none := by
  simp only [move] at stuck ⊢
  split at stuck <;> simp_all

/-! ## Canonical parsers -/

section Canonical

variable {accept : Nat} (built : p.WellBuilt)
  (canonical : p.automaton.Canonical p.grammar p.analysis accept)
  (chosen : p.grammar.accept = some accept) (sound : p.analysis.Sound p.grammar)
  (productive : ∀ s, p.grammar.isNonterminal s → p.grammar.Productive s)
  (quiet : p.table.isContested = false) (fresh : p.grammar.AcceptFresh)

/-- In front of a viable token a run only stops to accept. -/
theorem WellBuilt.accept_of_viable (built : p.WellBuilt) (quiet : p.table.isContested = false)
    (fresh : p.grammar.AcceptFresh) {stack : List StackEntry} {token : Token}
    (moves : ∀ rest, p.Moves n ⟨[], taken ++ token :: rest⟩ ⟨stack, token :: rest⟩)
    (stuck : ∀ rest, p.move ⟨stack, token :: rest⟩ = none) (viable : Viable p.grammar taken token) :
    p.action (topState stack) token = .accept := by
  obtain ⟨s, tree, last, rest, more, goal, derivation, isEnd, text⟩ := viable
  obtain ⟨t, whole, accepts⟩ := built.moves_of_derivation quiet fresh goal derivation isEnd rest
  rw [text] at whole
  cases (moves more).unique_of_stuck (stuck more) whole (move_of_accept accepts)
  exact accepts

section Moves

variable {stack : List StackEntry} {token : Token}
  (moves : ∀ rest, p.Moves n ⟨[], taken ++ rest⟩ ⟨stack, rest⟩)

include built moves

theorem WellBuilt.supported_of_moves :
    ∃ γ, p.Supported γ stack ∧ Tree.fringe (treesOf stack) = taken := by
  obtain ⟨γ, supported⟩ := Supported.nil.moves built (moves [])
  exact ⟨γ, supported, by simpa [Situation.text, treesOf] using (moves []).text⟩

theorem WellBuilt.action_of_viable (quiet : p.table.isContested = false)
    (fresh : p.grammar.AcceptFresh) (viable : Viable p.grammar taken token) :
    p.action (topState stack) token ≠ .error := by
  intro decided
  have stuck (rest : List Token) : p.move ⟨stack, token :: rest⟩ = none := by simp [move, decided]
  cases (built.accept_of_viable quiet fresh (fun rest => moves _) stuck viable).symm.trans decided

include canonical chosen sound productive

/-- A token with an action is viable. -/
theorem WellBuilt.viable_of_action (decided : p.action (topState stack) token ≠ .error) :
    Viable p.grammar taken token := by
  obtain ⟨X, known, terminal, held⟩ := action_eq decided rfl
  obtain ⟨γ, supported, rfl⟩ := built.supported_of_moves moves
  exact supported.viable_of_cell built canonical chosen sound productive terminal held
    (built.wellFormed.symbol?_iff.mp known).name_eq.symm

theorem WellBuilt.exists_viable : ∃ tokens token, Viable p.grammar (taken ++ tokens) token := by
  obtain ⟨γ, supported, rfl⟩ := built.supported_of_moves moves
  exact supported.exists_viable built canonical chosen sound productive

include quiet fresh

/-- The cells of the state behind the last shift say which terminals are viable. -/
theorem WellBuilt.cell?_isSome_iff {X : Symbol} (terminal : p.grammar.isTerminal X) :
    (p.table.cell? (topState stack) X).isSome ↔ Viable p.grammar taken (p.grammar.sample X) := by
  have known : p.grammar.symbol? (p.grammar.sample X).name = some X :=
    built.wellFormed.symbol?_iff.mpr (built.wellFormed.named_of_isTerminal terminal)
  constructor
  · intro held
    obtain ⟨act, held⟩ := Option.isSome_iff_exists.mp held
    obtain ⟨γ, supported, rfl⟩ := built.supported_of_moves moves
    exact supported.viable_of_cell built canonical chosen sound productive terminal held rfl
  · intro viable
    have decided := built.action_of_viable moves quiet fresh viable
    simp only [action, known, terminal, if_true, Table.action] at decided
    cases held : p.table.cell? (topState stack) X with
    | none => simp [held] at decided
    | some act => rfl

/-- The names that the state behind the last shift expects. -/
theorem WellBuilt.expects {s : Symbol} (goal : p.grammar.goal? = some s) :
    p.grammar.Expects s (taken.map (·.name))
      ((p.table.expected (topState stack)).map p.grammar.name) := by
  have wf := built.wellFormed
  have expected : p.table.expected (topState stack) =
      p.grammar.terminals.filter fun s => (p.table.cell? (topState stack) s).isSome := by
    rw [built.table]
    exact Table.expected_ofAutomaton (Grammar.Named.index_lt ⟨_, wf.ending⟩) _ _
  have proper : ∀ t ∈ taken, ¬ t.isEnd := (moves []).not_isEnd built (by simp)
  have ordered : (p.table.expected (topState stack)).Pairwise (·.index < ·.index) := by
    have symbols : p.grammar.symbols.Pairwise (·.index < ·.index) := by
      rw [Grammar.symbols, List.pairwise_map]
      exact List.pairwise_lt_range
    rw [expected, Grammar.terminals]
    exact (symbols.filter _).filter _
  have mem {t : Symbol} : t ∈ p.table.expected (topState stack) ↔ p.grammar.isTerminal t ∧
      (p.table.cell? (topState stack) t).isSome := by
    rw [expected, Grammar.terminals, Grammar.symbols]
    simp only [List.mem_filter, List.mem_map, List.mem_range, and_congr_left_iff,
      and_iff_right_iff_imp]
    exact fun _ terminal => ⟨t.index, Grammar.index_lt_of_isTerminal terminal, rfl⟩
  refine ⟨?distinct, _, rfl, ordered, fun t => ?_⟩
  case distinct =>
    -- different terminals have different names
    apply List.Nodup.map_on _ (ordered.imp fun less same => by simp [same] at less)
    intro t inT u inU same
    have namedT := wf.named_of_isTerminal (mem.mp inT).1
    have namedU := wf.named_of_isTerminal (mem.mp inU).1
    exact Grammar.Named.unique wf.distinct namedT (same ▸ namedU)
  · rw [mem, and_congr_right_iff]
    intro terminal
    rw [built.cell?_isSome_iff canonical chosen sound productive quiet fresh moves terminal]
    have ends : (p.grammar.sample t).isEnd ↔ t = .endOfInput := by
      have known := wf.symbol?_iff.mpr (wf.named_of_isTerminal terminal)
      rw [Token.isEnd, decide_eq_true_eq, ← wf.symbol?_eq_endOfInput_iff]
      exact known ▸ Option.some_inj
    split
    next same => exact wf.viable_end_iff fresh goal proper (ends.mpr same)
    next other => exact wf.viable_iff fresh goal proper (mt ends.mp other)

end Moves

include built canonical chosen sound productive quiet fresh

/-- In front of a token that is refused, a canonical parser has made its last move: it stands behind
the last shift, and the token is not viable. -/
theorem WellBuilt.refused {stack : List StackEntry} {token : Token} {rest : List Token}
    (moves : p.Moves n ⟨[], taken ++ token :: rest⟩ ⟨stack, token :: rest⟩)
    (stuck : p.move ⟨stack, token :: rest⟩ = none)
    (refused : p.action (topState stack) token ≠ .accept) :
    ¬ Viable p.grammar taken token ∧ ∃ i, ∀ other, p.Moves i ⟨[], taken ++ other⟩ ⟨stack, other⟩ := by
  obtain ⟨i, j, settled, front, reductions⟩ := moves.settle rfl
  have hopeless : ¬ Viable p.grammar taken token := by
    intro viable
    have again (other : List Token) :
        p.Moves (i + j) ⟨[], taken ++ token :: other⟩ ⟨stack, token :: other⟩ :=
      (front _).trans (reductions.reductions rfl rfl other)
    exact refused (built.accept_of_viable quiet fresh again (move_eq_none stuck) viable)
  refine ⟨hopeless, i, ?_⟩
  cases reductions with
  | rest => exact front
  | more step =>
    -- a reduction in front of the token would make it viable
    obtain ⟨first, behind, ahead, cases⟩ := move_cases step
    cases ahead
    have decided : p.action (topState settled) token ≠ .error := by
      rcases cases with ⟨t, decided, -⟩ | ⟨k, q, t, decided, -⟩ <;> simp [decided]
    exact absurd (built.viable_of_action canonical chosen sound productive front decided) hopeless

/-- What a text that is refused for a token says: the tokens that were shifted begin a sentence, but
not with this token behind them, and the names expected are those of the tokens that may come. -/
theorem WellBuilt.refusal {text : String} {budget : Nat} {e : Refusal} {c : Configuration}
    (ended : p.run budget (.start (p.lexer.scan text)) = some (.failed e c))
    (read : ∀ cause, e ≠ .lexer cause) :
    ∃ s shifted token rest scanner state, p.grammar.goal? = some s ∧
      (p.lexer.tokenization text).tokens = shifted ++ token :: rest ∧
      shifted.length = c.counts.tokens ∧ e = p.unexpected state token scanner ∧
      (∀ t ∈ shifted, ¬ t.isEnd) ∧ p.grammar.Opens s (shifted.map (·.name)) ∧
      ¬ Viable p.grammar shifted token ∧ p.grammar.Expects s (shifted.map (·.name))
        ((p.table.expected state).map p.grammar.name) := by
  obtain ⟨n, y, -, moves, stuck, ends, counts⟩ :=
    built.moves_of_run (stands_start p.lexer text) ended
  obtain ⟨shifted, tokens⟩ := moves.tokens
  have tokens : (p.lexer.tokenization text).tokens = shifted ++ y.tokens := tokens.symm
  cases ends with
  | lexer => exact absurd rfl (read _)
  | @stray stack token rest k _ _ decided stray =>
    obtain ⟨γ, supported⟩ := Supported.nil.moves built moves
    exact absurd stray (supported.not_stray built decided)
  | @unexpected stack token rest scanner _ _ refused =>
    have refused : p.action (topState stack) token ≠ .accept := by
      obtain ⟨γ, supported⟩ := Supported.nil.moves built moves
      intro decided
      exact (supported.grounded built).accepts token decided (refused decided)
    rw [tokens] at moves counts
    obtain ⟨hopeless, i, front⟩ := built.refused canonical chosen sound productive quiet fresh moves
      stuck refused
    have length : shifted.length = c.counts.tokens := by
      simp only [Outcome.last, Configuration.start, List.length_append] at counts
      omega
    have proper : ∀ t ∈ shifted, ¬ t.isEnd := (front []).not_isEnd built (by simp)
    obtain ⟨q, s, found, rhs, nonterminal, goal⟩ := built.wellFormed.goal chosen
    have opens : p.grammar.Opens s (shifted.map (·.name)) := by
      obtain ⟨more, next, viable⟩ := built.exists_viable canonical chosen sound productive front
      exact Grammar.opens_of_viable goal proper viable
    exact ⟨s, shifted, token, rest, scanner, _, goal, tokens, length, rfl, proper, opens, hopeless,
      built.expects canonical chosen sound productive quiet fresh front goal⟩

end Canonical

theorem unexpected_eq_unexpectedToken {state : Nat} {token : Token} {scanner : Scanner}
    {span : Text.Span} {position : Text.Position} {found : String} {expected : List String}
    (same : .unexpectedToken span position found expected = p.unexpected state token scanner) :
    ¬ token.isEnd ∧ token.name = found ∧
      (p.table.expected state).map p.grammar.name = expected := by
  unfold unexpected at same
  dsimp only at same
  split at same
  next => cases same
  next inner =>
    cases same
    exact ⟨inner, rfl, rfl⟩

theorem unexpected_eq_unexpectedEnd {state : Nat} {token : Token} {scanner : Scanner}
    {span : Text.Span} {position : Text.Position} {expected : List String}
    (same : .unexpectedEnd span position expected = p.unexpected state token scanner) :
    token.isEnd ∧ (p.table.expected state).map p.grammar.name = expected := by
  unfold unexpected at same
  dsimp only at same
  split at same
  next last =>
    cases same
    exact ⟨last, rfl⟩
  next => cases same

/-- Exact error reports: where a canonical parser of a productive grammar without conflicts refuses a
token, what it has shifted begins some sentence and does not with the token behind it, or is no
sentence if the text ends there. The names it expects are exactly those that may come there. -/
theorem refusals_exact {g : Grammar} {l : Lexer} {settings : Settings} (grammar : g.Built)
    (done : ofGrammar engine g l settings = .ok p) (unmerged : settings.lalr = false)
    (fresh : p.grammar.AcceptFresh) (quiet : p.table.isContested = false)
    (productive : ∀ s, g.isNonterminal s → g.Productive s) {text : String} {e : Refusal}
    {c : Configuration} (ended : p.runOver (p.lexer.scan text) = some (.failed e c)) :
    ∃ s, p.grammar.goal? = some s ∧
      (∀ span position found expected, e = .unexpectedToken span position found expected →
        ∃ shifted token rest, (p.lexer.tokenization text).tokens = shifted ++ token :: rest ∧
          shifted.length = c.counts.tokens ∧ token.name = found ∧
          p.grammar.Opens s (shifted.map (·.name)) ∧
          ¬ p.grammar.Opens s (shifted.map (·.name) ++ [found]) ∧
          p.grammar.Expects s (shifted.map (·.name)) expected) ∧
      (∀ span position expected, e = .unexpectedEnd span position expected →
        ∃ shifted token rest, (p.lexer.tokenization text).tokens = shifted ++ token :: rest ∧
          shifted.length = c.counts.tokens ∧ token.isEnd ∧
          p.grammar.Opens s (shifted.map (·.name)) ∧
          shifted.map (·.name) ∉ p.grammar.sentences s ∧
          p.grammar.Expects s (shifted.map (·.name)) expected) := by
  have built := wellBuilt_of_ofGrammar grammar done
  obtain ⟨augmented, lexer, accept, -, chosen, same, -⟩ := ofGrammar_eq_ok_iff.mp done
  have productive : ∀ s, p.grammar.isNonterminal s → p.grammar.Productive s := by
    rw [same]
    exact grammar.wellFormed.productive_augment augmented productive
  have canonical : p.automaton.Canonical p.grammar p.analysis accept := by
    rw [same]
    simp only [assembled, automatonFor, unmerged, Bool.false_eq_true, if_false]
    exact Automaton.canonical_spec grammar.wellFormed.augment
      (Begins.analysis_closed grammar.wellFormed.augment) chosen
  have sound : p.analysis.Sound p.grammar := by
    rw [same]
    exact Begins.analysis_sound _
  have chosen : p.grammar.accept = some accept := by rw [same]; exact chosen
  obtain ⟨q, s, -, -, -, goal⟩ := built.wellFormed.goal chosen
  have report := built.refusal canonical chosen sound productive quiet fresh ended
  refine ⟨s, goal, ?token, ?ending⟩
  case token =>
    rintro span position found expected rfl
    obtain ⟨s', shifted, token, rest, scanner, state, goal', tokens, length, refusal, proper, opens,
      hopeless, expects⟩ := report (by simp)
    cases goal.symm.trans goal'
    obtain ⟨inner, rfl, rfl⟩ := unexpected_eq_unexpectedToken refusal
    rw [built.wellFormed.viable_iff fresh goal proper inner] at hopeless
    exact ⟨shifted, token, rest, tokens, length, rfl, opens, hopeless, expects⟩
  case ending =>
    rintro span position expected rfl
    obtain ⟨s', shifted, token, rest, scanner, state, goal', tokens, length, refusal, proper, opens,
      hopeless, expects⟩ := report (by simp)
    cases goal.symm.trans goal'
    obtain ⟨last, rfl⟩ := unexpected_eq_unexpectedEnd refusal
    rw [built.wellFormed.viable_end_iff fresh goal proper last] at hopeless
    exact ⟨shifted, token, rest, tokens, length, last, opens, hopeless, expects⟩

/-- The text `ba` is refused at its second token, where only the end may come. -/
theorem refusals_exact_chain : ∃ p c span position s shifted token rest,
    ofGrammar .builtIn .chain .empty { Settings.standard with lalr := false } = .ok p ∧
      p.runOver (p.lexer.scan "ba") =
        some (.failed (.unexpectedToken span position "a" [endName]) c) ∧
      (p.lexer.tokenization "ba").tokens = shifted ++ token :: rest ∧
      shifted.length = c.counts.tokens ∧ token.name = "a" ∧
      p.grammar.Opens s (shifted.map (·.name)) ∧
      ¬ p.grammar.Opens s (shifted.map (·.name) ++ ["a"]) ∧
      p.grammar.Expects s (shifted.map (·.name)) [endName] := by
  obtain ⟨p, done, passed⟩ := exists_of_check
    (ofGrammar .builtIn .chain .empty { Settings.standard with lalr := false })
    (fun p => !p.table.isContested && (p.runOver (p.lexer.scan "ba")).bind Outcome.error? =
      some (.unexpectedToken ⟨1, 2⟩ ⟨0, 1⟩ "a" [endName])) (by decide +kernel)
  obtain ⟨quiet, refused⟩ := Bool.and_eq_true_iff.mp passed
  obtain ⟨outcome, ended, refused⟩ := Option.bind_eq_some_iff.mp (of_decide_eq_true refused)
  rw [outcome.eq_failed refused] at ended
  obtain ⟨augmented, same⟩ := grammar_of_ofGrammar done
  have fresh : p.grammar.AcceptFresh :=
    same ▸ Grammar.chain_built.wellFormed.acceptFresh_augment rfl augmented
  obtain ⟨s, -, exact, -⟩ := refusals_exact Grammar.chain_built done rfl fresh
    (by simpa using quiet) Grammar.chain_productive ended
  obtain ⟨shifted, token, rest, report⟩ := exact _ _ _ _ rfl
  exact ⟨p, _, _, _, s, shifted, token, rest, done, ended, report⟩

end Parser

end ShiftReduce
