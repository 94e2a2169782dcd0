import ShiftReduce.Parser.Report
import ShiftReduce.Proofs.Parser.Decisions

/-!
# Moves

Shifting and reducing only depend on the stack and on the tokens to come. A run of the parser is a
sequence of such moves, and ends where no move is left.
-/
namespace ShiftReduce

/-- A stack, its top first, and the tokens to come. -/
structure Situation where
  stack : List StackEntry
  tokens : List Token

/-- The state on top of a stack. -/
def topState (stack : List StackEntry) : Nat := (stack.head?.map (·.state)).getD 0

/-- The trees of a stack, in the order of the text. -/
def treesOf (stack : List StackEntry) : List Tree := stack.reverse.map (·.tree)

@[simp] theorem treesOf_cons (entry : StackEntry) (stack : List StackEntry) :
    treesOf (entry :: stack) = treesOf stack ++ [entry.tree] := by
  simp [treesOf]

theorem treesOf_split (n : Nat) (stack : List StackEntry) :
    treesOf (stack.drop n) ++ treesOf (stack.take n) = treesOf stack := by
  rw [treesOf, treesOf, treesOf, ← List.map_append, ← List.reverse_append, List.take_append_drop]

namespace Situation

/-- The leaves on the stack and the tokens to come: the whole text. -/
def text (x : Situation) : List Token := Tree.fringe (treesOf x.stack) ++ x.tokens

/-- Number of nodes on the stack. -/
def weight (x : Situation) : Nat := Tree.countAll (treesOf x.stack)

end Situation

namespace Outcome

/-- The configuration that an outcome leaves. -/
def last : Outcome → Configuration
  | .accepted _ c | .failed _ c => c

/-- The tree of a text that is accepted. -/
def tree? : Outcome → Option Tree
  | accepted tree _ => some tree
  | failed .. => none

/-- The error of a text that is not. -/
def error? : Outcome → Option Refusal
  | accepted .. => none
  | failed error _ => some error

theorem eq_accepted {outcome : Outcome} {tree : Tree} (given : outcome.tree? = some tree) :
    outcome = accepted tree outcome.last := by
  cases outcome <;> cases given
  rfl

theorem eq_failed {outcome : Outcome} {error : Refusal} (given : outcome.error? = some error) :
    outcome = failed error outcome.last := by
  cases outcome <;> cases given
  rfl

end Outcome

namespace Parser

/-- The stack after reducing production `k`. -/
def reduced? (p : Parser) (k : Nat) (stack : List StackEntry) : Option (List StackEntry) :=
  (p.grammar.production? k).bind fun q =>
    if stack.length < q.length then none
    else (p.table.goto? (topState (stack.drop q.length)) q.lhs).map fun t =>
      ⟨t, .node q (treesOf (stack.take q.length))⟩ :: stack.drop q.length

/-- Shift or reduce. -/
def move (p : Parser) (x : Situation) : Option Situation :=
  match x.tokens with
  | [] => none
  | token :: rest =>
    match p.action (topState x.stack) token with
    | .shift t => some ⟨⟨t, .leaf token⟩ :: x.stack, rest⟩
    | .reduce k => (p.reduced? k x.stack).map (⟨·, x.tokens⟩)
    | _ => none

/-- A number of moves in a row. -/
inductive Moves (p : Parser) : Nat → Situation → Situation → Prop
  | rest (x : Situation) : Moves p 0 x x
  | more {n : Nat} {x y z : Situation} (first : p.move x = some y) (later : Moves p n y z) :
      Moves p (n + 1) x z

variable {p : Parser} {n m : Nat} {x y z : Situation}

theorem Moves.one (first : p.move x = some y) : p.Moves 1 x y := .more first (.rest y)

theorem Moves.trans (first : p.Moves n x y) (later : p.Moves m y z) : p.Moves (n + m) x z := by
  induction first with
  | rest => rwa [Nat.zero_add]
  | more step _ ih => rw [Nat.succ_add]; exact .more step (ih later)

/-- Moves are determined: of two sequences the shorter one is a part of the longer. -/
theorem Moves.from_shorter (short : p.Moves n x y) (long : p.Moves m x z) (le : n ≤ m) :
    p.Moves (m - n) y z := by
  induction short generalizing m with
  | rest => exact long
  | more step _ ih =>
    cases long with
    | rest => omega
    | more step' later =>
      -- both take the same first move
      cases step.symm.trans step'
      rw [Nat.add_sub_add_right]
      exact ih later (by omega)

theorem Moves.split (moves : p.Moves (n + m) x z) : ∃ y, p.Moves n x y ∧ p.Moves m y z := by
  induction n generalizing x with
  | zero => exact ⟨x, .rest x, by rwa [Nat.zero_add] at moves⟩
  | succ n ih =>
    rw [Nat.succ_add] at moves
    cases moves with
    | more step later =>
      obtain ⟨y, first, rest⟩ := ih later
      exact ⟨y, .more step first, rest⟩

theorem Moves.last (moves : p.Moves (n + 1) x z) : ∃ y, p.Moves n x y ∧ p.move y = some z := by
  obtain ⟨y, first, last⟩ := moves.split
  cases last with
  | more step done =>
    cases done
    exact ⟨y, first, step⟩

/-- Nothing is beyond a situation without a move. -/
theorem Moves.le_of_stuck (stuck : p.move y = none) (short : p.Moves n x y) (long : p.Moves m x z) :
    m ≤ n := by
  by_contra more
  have further := short.from_shorter long (by omega)
  generalize steps : m - n = k at further
  cases further with
  | rest => omega
  | more step => cases stuck.symm.trans step

theorem Moves.unique_of_stuck (first : p.Moves n x y) (stuckY : p.move y = none)
    (second : p.Moves m x z) (stuckZ : p.move z = none) : y = z := by
  obtain rfl : n = m :=
    Nat.le_antisymm (second.le_of_stuck stuckZ first) (first.le_of_stuck stuckY second)
  have none := first.from_shorter second (Nat.le_refl n)
  rw [Nat.sub_self] at none
  cases none
  rfl

/-! ## What one move changes -/

/-- The two kinds of moves. -/
theorem move_cases (step : p.move x = some y) : ∃ token rest, x.tokens = token :: rest ∧
    ((∃ t, p.action (topState x.stack) token = .shift t ∧
      y = ⟨⟨t, .leaf token⟩ :: x.stack, rest⟩) ∨
    ∃ k q t, p.action (topState x.stack) token = .reduce k ∧ p.grammar.production? k = some q ∧
      q.length ≤ x.stack.length ∧
      p.table.goto? (topState (x.stack.drop q.length)) q.lhs = some t ∧
      y = ⟨⟨t, .node q (treesOf (x.stack.take q.length))⟩ :: x.stack.drop q.length, x.tokens⟩) := by
  unfold move at step
  split at step
  next => cases step
  next token rest ahead =>
    refine ⟨token, rest, ahead, ?_⟩
    split at step
    next t decided =>
      cases step
      exact Or.inl ⟨t, decided, rfl⟩
    next k decided =>
      obtain ⟨stack, reduced, rfl⟩ := Option.map_eq_some_iff.mp step
      obtain ⟨q, found, reduced⟩ := Option.bind_eq_some_iff.mp reduced
      split at reduced
      next => cases reduced
      next enough =>
        obtain ⟨t, exposed, rfl⟩ := Option.map_eq_some_iff.mp reduced
        exact Or.inr ⟨k, q, t, decided, found, Nat.le_of_not_lt enough, exposed, rfl⟩
    next => cases step

theorem move_of_shift {stack : List StackEntry} {token : Token} {rest : List Token} {t : Nat}
    (decided : p.action (topState stack) token = .shift t) :
    p.move ⟨stack, token :: rest⟩ = some ⟨⟨t, .leaf token⟩ :: stack, rest⟩ := by
  simp [move, decided]

theorem move_of_reduce {stack : List StackEntry} {token : Token} {k t : Nat} {q : Production}
    (rest : List Token) (decided : p.action (topState stack) token = .reduce k)
    (found : p.grammar.production? k = some q) (enough : q.length ≤ stack.length)
    (goes : p.table.goto? (topState (stack.drop q.length)) q.lhs = some t) :
    p.move ⟨stack, token :: rest⟩ = some
      ⟨⟨t, .node q (treesOf (stack.take q.length))⟩ :: stack.drop q.length, token :: rest⟩ := by
  simp [move, decided, reduced?, found, Nat.not_lt.mpr enough, goes]

theorem move_of_accept {stack : List StackEntry} {token : Token} {rest : List Token}
    (decided : p.action (topState stack) token = .accept) : p.move ⟨stack, token :: rest⟩ = none := by
  simp [move, decided]

/-- The text stays the same. -/
theorem text_of_move (step : p.move x = some y) : y.text = x.text := by
  obtain ⟨token, rest, ahead, ⟨t, -, rfl⟩ | ⟨k, q, t, -, -, -, -, rfl⟩⟩ := move_cases step
  · simp [Situation.text, ahead]
  · simp [Situation.text, ← treesOf_split q.length x.stack]

/-- A move adds one node. -/
theorem weight_of_move (step : p.move x = some y) : y.weight = x.weight + 1 := by
  obtain ⟨token, rest, ahead, ⟨t, -, rfl⟩ | ⟨k, q, t, -, -, -, -, rfl⟩⟩ := move_cases step
  · simp [Situation.weight, Tree.countAll, Tree.count]
  -- the trees of the right-hand side go below the new node
  · simp only [Situation.weight, treesOf_cons, ← treesOf_split q.length x.stack,
      Tree.countAll_append, Tree.countAll, Tree.count]
    omega

/-- Tokens are only ever taken. -/
theorem tokens_of_move (step : p.move x = some y) : y.tokens <:+ x.tokens := by
  obtain ⟨token, rest, ahead, ⟨t, -, rfl⟩ | ⟨k, q, t, -, -, -, -, rfl⟩⟩ := move_cases step
  · rw [ahead]
    exact List.suffix_cons _ _
  · exact List.suffix_refl _

theorem Moves.text (moves : p.Moves n x y) : y.text = x.text := by
  induction moves with
  | rest => rfl
  | more step _ ih => rw [ih, text_of_move step]

theorem Moves.weight (moves : p.Moves n x y) : y.weight = x.weight + n := by
  induction moves with
  | rest => rfl
  | more step _ ih => rw [ih, weight_of_move step, Nat.add_assoc, Nat.add_comm 1]

theorem Moves.tokens (moves : p.Moves n x y) : y.tokens <:+ x.tokens := by
  induction moves with
  | rest => exact List.suffix_refl _
  | more step _ ih => exact ih.trans (tokens_of_move step)

/-! ## Configurations -/

/-- The tokens to come in a configuration, the one ahead included, and the error behind them. -/
inductive Awaits (c : Configuration) : List Token → Option Unmatched → Prop
  | unread {tokens : List Token} {failure : Option Unmatched} (ahead : c.ahead = none)
      (unfinished : c.scanner.finished = false) (reads : c.scanner.Reads tokens failure) :
      Awaits c tokens failure
  | read {token : Token} {rest : List Token} {failure : Option Unmatched}
      (ahead : c.ahead = some token) (unfinished : c.scanner.finished = false)
      (reads : c.scanner.Reads rest failure) : Awaits c (token :: rest) failure
  | ended {token : Token} (ahead : c.ahead = some token) (last : token.isEnd) :
      Awaits c [token] none

/-- A configuration stands for a situation in a text with a fault at its end, if any. -/
structure Stands (c : Configuration) (source : List Char) (failure : Option Unmatched)
    (x : Situation) : Prop where
  stack : c.stack = x.stack
  source : c.scanner.source = source
  awaits : Awaits c x.tokens failure

variable {c : Configuration} {source : List Char} {failure : Option Unmatched}

theorem stands_start (l : Lexer) (text : String) : Stands (.start (l.scan text)) text.toList
    (l.tokenization text).failure ⟨[], (l.tokenization text).tokens⟩ :=
  ⟨rfl, rfl, .unread rfl rfl (l.reads_scan text).1⟩

/-- Looking ahead finds the first of the tokens to come, and changes nothing else. -/
theorem lookahead_spec {stack : List StackEntry} {token : Token} {rest : List Token}
    (stands : Stands c source failure ⟨stack, token :: rest⟩) : ∃ d, lookahead c = (.ok token, d) ∧
      Stands d source failure ⟨stack, token :: rest⟩ ∧ d.ahead = some token ∧
      d.counts = c.counts := by
  obtain ⟨same, source, awaits⟩ := stands
  unfold lookahead
  cases awaits with
  | unread ahead unfinished reads =>
    have kept := (Scanner.next_spec unfinished).2.2
    cases reads with
    | ended outcome last =>
      simp only [ahead, outcome]
      exact ⟨_, rfl, ⟨same, kept.trans source, .ended rfl last⟩, rfl, rfl⟩
    | token outcome _ _ unfinished later =>
      simp only [ahead, outcome]
      exact ⟨_, rfl, ⟨same, kept.trans source, .read rfl unfinished later⟩, rfl, rfl⟩
  | read ahead unfinished reads =>
    simp only [ahead]
    exact ⟨c, rfl, ⟨same, source, .read ahead unfinished reads⟩, ahead, rfl⟩
  | ended ahead last =>
    simp only [ahead]
    exact ⟨c, rfl, ⟨same, source, .ended ahead last⟩, ahead, rfl⟩

theorem lookahead_failed {stack : List StackEntry} (stands : Stands c source failure ⟨stack, []⟩) :
    ∃ e d, failure = some e ∧ lookahead c = (.error e, d) ∧ d.counts = c.counts := by
  obtain ⟨-, -, awaits⟩ := stands
  unfold lookahead
  cases awaits with
  | unread ahead _ reads =>
    cases reads with
    | failed outcome =>
      simp only [ahead, outcome]
      exact ⟨_, _, rfl, rfl, rfl⟩

/-! ## Steps -/

theorem reduce_of_reduced {k : Nat} {stack : List StackEntry}
    (reduced : p.reduced? k c.stack = some stack) : ∃ counts, counts.tokens = c.counts.tokens ∧
      p.reduce c k = .next { c with stack, counts } := by
  obtain ⟨q, found, reduced⟩ := Option.bind_eq_some_iff.mp reduced
  split at reduced
  next => cases reduced
  next enough =>
    obtain ⟨t, exposed, rfl⟩ := Option.map_eq_some_iff.mp reduced
    -- as many entries are popped as the right-hand side has symbols
    have popped : ¬ (c.stack.take q.length).length < q.length := by
      rw [List.length_take]
      omega
    have exposed : p.table.goto? (Configuration.state { c with stack := c.stack.drop q.length })
      q.lhs = some t := exposed
    refine ⟨_, ?_, by simp only [reduce, found, popped, exposed, if_false]; rfl⟩
    rfl

theorem reduce_of_stray {k : Nat} (stray : p.reduced? k c.stack = none) :
    ∃ e d, p.reduce c k = .failed e d ∧ d.counts = c.counts := by
  unfold reduce
  cases found : p.grammar.production? k with
  | none => exact ⟨_, _, rfl, rfl⟩
  | some q =>
    dsimp only
    -- too few entries on the stack, or no edge from the state below
    split
    next => exact ⟨_, _, rfl, rfl⟩
    next popped =>
      have enough : ¬ c.stack.length < q.length := by
        rw [List.length_take] at popped
        omega
      simp only [reduced?, found, Option.bind_some, enough, if_false, Option.map_eq_none_iff] at stray
      have stray : p.table.goto? (Configuration.state { c with stack := c.stack.drop q.length })
        q.lhs = none := stray
      simp only [stray]
      exact ⟨_, _, rfl, rfl⟩

/-- The end of the input is never shifted. -/
theorem WellBuilt.not_shift_end (built : p.WellBuilt) {s t : Nat} {token : Token}
    (last : token.isEnd) : p.action s token ≠ .shift t := by
  intro decided
  obtain ⟨X, known, -, edge⟩ := built.action_shift decided
  have ending : p.grammar.symbol? token.name = some .endOfInput :=
    built.wellFormed.symbol?_eq_endOfInput_iff.mpr (by simpa [Token.isEnd] using last)
  cases known.symm.trans ending
  exact (built.tracks.edge s _ t edge).1 rfl

/-- A step makes the move there is. -/
theorem WellBuilt.step_of_move (built : p.WellBuilt) (stands : Stands c source failure x)
    (step : p.move x = some y) : ∃ d, p.step c = .next d ∧ Stands d source failure y ∧
      d.counts.tokens + y.tokens.length = c.counts.tokens + x.tokens.length := by
  obtain ⟨stack, tokens⟩ := x
  cases tokens with
  | nil => cases step
  | cons token rest =>
    obtain ⟨d, looked, ⟨same, kept, awaits⟩, ahead, counts⟩ := lookahead_spec stands
    have same : d.stack = stack := same
    have top : d.state = topState stack := congrArg topState same
    simp only [move] at step
    rw [Parser.step, looked]
    dsimp only [act]
    rw [top]
    split at step
    next t decided =>
      cases step
      simp only [decided]
      refine ⟨_, rfl, ⟨by rw [same], kept, ?_⟩, ?_⟩
      -- the token ahead is used up by a shift, which it is not at the end of the text
      · cases awaits with
        | unread none => cases none.symm.trans ahead
        | read _ unfinished reads => exact .unread rfl unfinished reads
        | ended _ last => exact absurd decided (built.not_shift_end last)
      · dsimp only
        rw [counts, List.length_cons]
        omega
    next k decided =>
      simp only [decided]
      obtain ⟨after, reduced, rfl⟩ := Option.map_eq_some_iff.mp step
      obtain ⟨counts', taken, reduces⟩ := reduce_of_reduced (c := d) (same.symm ▸ reduced)
      refine ⟨_, reduces, ⟨rfl, kept, ?_⟩, ?_⟩
      -- a reduction leaves the token ahead
      · cases awaits with
        | unread none => cases none.symm.trans ahead
        | read _ unfinished reads => exact .read ahead unfinished reads
        | ended _ last => exact .ended ahead last
      · dsimp only
        rw [taken, counts]
    next => cases step

/-- How a run ends in a situation without a move. -/
inductive Ends (p : Parser) (source : List Char) (failure : Option Unmatched) :
    Situation → Outcome → Prop
  | lexer {stack : List StackEntry} {e : Unmatched} {d : Configuration} (failed : failure = some e) :
      Ends p source failure ⟨stack, []⟩ (.failed (.lexer e) d)
  | accepted {entry : StackEntry} {below : List StackEntry} {token : Token} {rest : List Token}
      {d : Configuration} (decided : p.action entry.state token = .accept) :
      Ends p source failure ⟨entry :: below, token :: rest⟩ (.accepted entry.tree d)
  | unexpected {stack : List StackEntry} {token : Token} {rest : List Token} {scanner : Scanner}
      {d : Configuration} (same : scanner.source = source)
      (refused : p.action (topState stack) token = .accept → stack = []) :
      Ends p source failure ⟨stack, token :: rest⟩
        (.failed (p.unexpected (topState stack) token scanner) d)
  | stray {stack : List StackEntry} {token : Token} {rest : List Token} {k : Nat} {e : Refusal}
      {d : Configuration} (decided : p.action (topState stack) token = .reduce k)
      (stray : p.reduced? k stack = none) : Ends p source failure ⟨stack, token :: rest⟩ (.failed e d)

theorem Ends.of_accept {entry : StackEntry} {below : List StackEntry} {token : Token}
    {rest : List Token} {outcome : Outcome}
    (ends : p.Ends source failure ⟨entry :: below, token :: rest⟩ outcome)
    (decided : p.action entry.state token = .accept) : ∃ d, outcome = .accepted entry.tree d := by
  cases ends with
  | accepted => exact ⟨_, rfl⟩
  | unexpected _ refused => cases refused decided
  | stray reduces => cases decided.symm.trans reduces

theorem step_of_stuck (stands : Stands c source failure x) (stuck : p.move x = none) :
    ∃ outcome, p.step c = .done outcome ∧ p.Ends source failure x outcome ∧
      outcome.last.counts = c.counts := by
  obtain ⟨stack, tokens⟩ := x
  cases tokens with
  | nil =>
    obtain ⟨e, d, failed, looked, counts⟩ := lookahead_failed stands
    exact ⟨_, by rw [step, looked]; rfl, .lexer failed, counts⟩
  | cons token rest =>
    obtain ⟨d, looked, ⟨same, kept, -⟩, -, counts⟩ := lookahead_spec stands
    have top : d.state = topState stack := congrArg topState same
    have same : d.stack = stack := same
    simp only [move] at stuck
    rw [step, looked]
    dsimp only [act]
    rw [top, same]
    split at stuck
    next => cases stuck
    next k decided =>
      have stray : p.reduced? k stack = none := by simpa using stuck
      obtain ⟨e, f, reduces, same⟩ := reduce_of_stray (c := d) (same.symm ▸ stray)
      exact ⟨_, by rw [decided]; exact reduces, .stray decided stray, same.trans counts⟩
    next other shifts reduces =>
      -- neither a shift nor a reduction: the run ends here
      cases decided : p.action (topState stack) token with
      | shift t => exact absurd decided (shifts t)
      | reduce k => exact absurd decided (reduces k)
      | accept =>
        cases stack with
        | nil => exact ⟨_, rfl, .unexpected kept fun _ => rfl, counts⟩
        | cons entry below => exact ⟨_, rfl, .accepted decided, counts⟩
      | goto t => exact ⟨_, rfl, .unexpected kept (by simp [decided]), counts⟩
      | error => exact ⟨_, rfl, .unexpected kept (by simp [decided]), counts⟩

/-! ## Runs -/

/-- A run makes the moves there are, and goes on from there. -/
theorem WellBuilt.run_of_moves (built : p.WellBuilt) (stands : Stands c source failure x)
    (moves : p.Moves n x y) : ∃ d, Stands d source failure y ∧
      ∀ budget, p.run (n + budget) c = p.run budget d := by
  induction moves generalizing c with
  | rest => exact ⟨c, stands, fun budget => by rw [Nat.zero_add]⟩
  | more step _ ih =>
    obtain ⟨d, goes, stands, -⟩ := built.step_of_move stands step
    obtain ⟨e, stands, later⟩ := ih stands
    refine ⟨e, stands, fun budget => ?_⟩
    rw [Nat.succ_add, run, goes]
    exact later budget

/-- A run that has steps enough ends as it must. -/
theorem WellBuilt.run_of_stuck (built : p.WellBuilt) (stands : Stands c source failure x)
    (moves : p.Moves n x y) (stuck : p.move y = none) {budget : Nat} (enough : n < budget) :
    ∃ outcome, p.run budget c = some outcome ∧ p.Ends source failure y outcome := by
  obtain ⟨d, stands, later⟩ := built.run_of_moves stands moves
  obtain ⟨outcome, ends, how, -⟩ := step_of_stuck stands stuck
  refine ⟨outcome, ?_, how⟩
  obtain ⟨more, rfl⟩ : ∃ more, budget = n + (more + 1) := ⟨budget - n - 1, by omega⟩
  rw [later, run, ends]

/-- Every run that ends does so after moves that lead to a situation without one. -/
theorem WellBuilt.moves_of_run (built : p.WellBuilt) (stands : Stands c source failure x)
    {budget : Nat} {outcome : Outcome} (ended : p.run budget c = some outcome) :
    ∃ n y, n < budget ∧ p.Moves n x y ∧ p.move y = none ∧ p.Ends source failure y outcome ∧
      outcome.last.counts.tokens + y.tokens.length = c.counts.tokens + x.tokens.length := by
  induction budget generalizing c x with
  | zero => cases ended
  | succ budget ih =>
    -- either the run ends at once, or it makes the first move
    cases step : p.move x with
    | none =>
      obtain ⟨outcome', ends, how, counts⟩ := step_of_stuck stands step
      rw [run, ends] at ended
      cases ended
      exact ⟨0, x, Nat.succ_pos _, .rest x, step, how, by rw [counts]⟩
    | some y =>
      obtain ⟨d, goes, stands, counts⟩ := built.step_of_move stands step
      rw [run, goes] at ended
      obtain ⟨n, z, bound, moves, stuck, how, counts'⟩ := ih stands ended
      exact ⟨n + 1, z, Nat.succ_lt_succ bound, .more step moves, stuck, how, counts'.trans counts⟩

/-- The configurations that a run passes through. -/
def Reaches (p : Parser) : Configuration → Configuration → Prop :=
  Relation.ReflTransGen fun c d => p.step c = .next d

/-- Whatever a run passes through stands for a situation that moves lead to. -/
theorem WellBuilt.moves_of_reaches (built : p.WellBuilt) (stands : Stands c source failure x)
    {d : Configuration} (reaches : p.Reaches c d) : ∃ n y, p.Moves n x y ∧
      Stands d source failure y ∧
      d.counts.tokens + y.tokens.length = c.counts.tokens + x.tokens.length := by
  induction reaches with
  | refl => exact ⟨0, x, .rest x, stands, rfl⟩
  | tail _ goes ih =>
    obtain ⟨n, y, moves, stands, counts⟩ := ih
    cases step : p.move y with
    | none =>
      obtain ⟨outcome, ends, -⟩ := step_of_stuck stands step
      cases ends.symm.trans goes
    | some z =>
      obtain ⟨e, goes', stands, counts'⟩ := built.step_of_move stands step
      cases goes'.symm.trans goes
      exact ⟨n + 1, z, moves.trans (.one step), stands, counts'.trans counts⟩

/-- A run that has not ended yet has made all its moves. -/
theorem WellBuilt.moves_of_running (built : p.WellBuilt) (stands : Stands c source failure x)
    {budget : Nat} (running : p.run budget c = none) : ∃ y, p.Moves budget x y := by
  induction budget generalizing c x with
  | zero => exact ⟨x, .rest x⟩
  | succ budget ih =>
    cases step : p.move x with
    | none =>
      obtain ⟨outcome, ends, -⟩ := step_of_stuck stands step
      rw [run, ends] at running
      cases running
    | some y =>
      obtain ⟨d, goes, stands, -⟩ := built.step_of_move stands step
      rw [run, goes] at running
      obtain ⟨z, moves⟩ := ih stands running
      exact ⟨z, .more step moves⟩

end Parser

end ShiftReduce
