import Mathlib.Data.List.FinRange
import Mathlib.Data.List.NodupEquivFin
import Mathlib.Tactic.Ring
import ShiftReduce.Proofs.Parser.Moves

/-!
# Enough steps

While the token ahead stays the same, what a run that ends piles up on the stack never has the same
state twice: the second time everything would begin anew. So there are only so many stacks between
two tokens, and the step budget covers all of them.
-/
namespace ShiftReduce.Parser

variable {p : Parser} {n m N : Nat} {x y : Situation}

/-! ## How long a run lasts -/

/-- The run from `x` ends after `n` moves. -/
def Lasts (p : Parser) (n : Nat) (x : Situation) : Prop := ∃ y, p.Moves n x y ∧ p.move y = none

theorem Lasts.unique (first : p.Lasts n x) (second : p.Lasts m x) : n = m := by
  obtain ⟨y, moves, stuck⟩ := first
  obtain ⟨z, moves', stuck'⟩ := second
  exact Nat.le_antisymm (moves'.le_of_stuck stuck' moves) (moves.le_of_stuck stuck moves')

theorem Lasts.later (lasts : p.Lasts N x) (moves : p.Moves n x y) : n ≤ N ∧ p.Lasts (N - n) y := by
  obtain ⟨z, all, stuck⟩ := lasts
  have bound := all.le_of_stuck stuck moves
  exact ⟨bound, z, moves.from_shorter all bound, stuck⟩

/-! ## States on the stack -/

/-- The states on a stack, its top first. -/
def statesOf (stack : List StackEntry) : List Nat := stack.map (·.state)

@[simp] theorem statesOf_cons (entry : StackEntry) (stack : List StackEntry) :
    statesOf (entry :: stack) = entry.state :: statesOf stack := rfl

@[simp] theorem statesOf_drop (n : Nat) (stack : List StackEntry) :
    statesOf (stack.drop n) = (statesOf stack).drop n := List.map_drop

@[simp] theorem length_statesOf (stack : List StackEntry) :
    (statesOf stack).length = stack.length := List.length_map _

theorem topState_eq (stack : List StackEntry) : topState stack = (statesOf stack).headD 0 := by
  cases stack <;> rfl

theorem topState_append (above stack : List StackEntry) :
    topState (above ++ stack) = (statesOf above).headD (topState stack) := by
  cases above <;> rfl

/-- Trees aside, two situations are the same. -/
structure Alike (x y : Situation) : Prop where
  states : statesOf x.stack = statesOf y.stack
  tokens : x.tokens = y.tokens

theorem Alike.move {x' : Situation} (alike : Alike x x') (step : p.move x = some y) :
    ∃ y', p.move x' = some y' ∧ Alike y y' := by
  obtain ⟨stack, tokens⟩ := x
  obtain ⟨stack', tokens'⟩ := x'
  obtain ⟨states, same⟩ := alike
  obtain rfl : tokens = tokens' := same
  have states : statesOf stack = statesOf stack' := states
  have top : topState stack = topState stack' := by rw [topState_eq, states, topState_eq]
  have lengths : stack.length = stack'.length := by simpa using congrArg List.length states
  obtain ⟨token, rest, ahead, ⟨t, decided, rfl⟩ | ⟨k, q, t, decided, found, enough, goes, rfl⟩⟩ :=
    move_cases step
  · obtain rfl : tokens = token :: rest := ahead
    exact ⟨_, move_of_shift (top ▸ decided), by simp [states], rfl⟩
  · obtain rfl : tokens = token :: rest := ahead
    have exposed : topState (stack.drop q.length) = topState (stack'.drop q.length) := by
      rw [topState_eq, statesOf_drop, states, topState_eq, statesOf_drop]
    exact ⟨_, move_of_reduce _ (top ▸ decided) found (lengths ▸ enough) (exposed ▸ goes),
      by simp [states], rfl⟩

theorem Alike.symm (alike : Alike x y) : Alike y x := ⟨alike.states.symm, alike.tokens.symm⟩

theorem Lasts.alike {x' : Situation} (lasts : p.Lasts n x) (alike : Alike x x') : p.Lasts n x' := by
  obtain ⟨y, moves, stuck⟩ := lasts
  induction moves generalizing x' with
  | rest x =>
    refine ⟨x', .rest x', ?_⟩
    cases step : p.move x' with
    | none => rfl
    | some y =>
      obtain ⟨y', step', -⟩ := alike.symm.move step
      cases stuck.symm.trans step'
  | more step _ ih =>
    obtain ⟨y', step', alike⟩ := alike.move step
    obtain ⟨z, moves, stuck⟩ := ih alike stuck
    exact ⟨z, .more step' moves, stuck⟩

/-! ## Growth that repeats -/

/-- Wherever the state `s` is on top in front of `token`, the states `v` pile up on it. -/
def Grows (p : Parser) (token : Token) (s : Nat) (v : List Nat) : Prop :=
  ∀ (stack : List StackEntry) (rest : List Token), topState stack = s →
    ∃ n above, p.Moves n ⟨stack, token :: rest⟩ ⟨above ++ stack, token :: rest⟩ ∧ statesOf above = v

variable {token : Token} {s t k : Nat} {v w base : List Nat}

theorem grows_nil (p : Parser) (token : Token) (s : Nat) : p.Grows token s [] :=
  fun _ _ _ => ⟨0, [], .rest _, rfl⟩

/-- A reduction that only pops what has piled up piles up its target. -/
theorem Grows.reduce {q : Production} (grows : p.Grows token s v)
    (decided : p.action (v.headD s) token = .reduce k) (found : p.grammar.production? k = some q)
    (enough : q.length ≤ v.length)
    (goes : p.table.goto? ((v.drop q.length).headD s) q.lhs = some t) :
    p.Grows token s (t :: v.drop q.length) := by
  intro stack rest top
  obtain ⟨n, above, moves, rfl⟩ := grows stack rest top
  rw [length_statesOf] at enough
  have below : (above ++ stack).drop q.length = above.drop q.length ++ stack :=
    List.drop_append_of_le_length enough
  have decided' : p.action (topState (above ++ stack)) token = .reduce k := by
    rw [topState_append, top]
    exact decided
  have step := move_of_reduce rest decided' found (by rw [List.length_append]; omega)
    (by rw [below, topState_append, statesOf_drop, top]; exact goes)
  rw [below] at step
  exact ⟨n + 1, _ :: above.drop q.length, moves.trans (.one step), by simp⟩

/-- Where a state piles up on itself, no run ends. -/
theorem Grows.not_lasts (grows : p.Grows token s (s :: v)) (stack : List StackEntry)
    (rest : List Token) (top : topState stack = s) : ¬ p.Lasts N ⟨stack, token :: rest⟩ := by
  induction N using Nat.strong_induction_on generalizing stack with
  | _ N ih =>
    intro lasts
    obtain ⟨n, above, moves, piled⟩ := grows stack rest top
    have top' : topState (above ++ stack) = s := by rw [topState_append, piled, List.headD_cons]
    -- the same state is on top again, of a higher stack and with fewer moves to go
    obtain ⟨bound, lasts'⟩ := lasts.later moves
    rcases Nat.eq_zero_or_pos n with rfl | positive
    · generalize same : (⟨above ++ stack, token :: rest⟩ : Situation) = z at moves
      cases moves
      have heights : (above ++ stack).length = stack.length := congrArg (·.stack.length) same
      rw [List.length_append] at heights
      have none : above = [] := List.eq_nil_of_length_eq_zero (by omega)
      simp [none, statesOf] at piled
    · exact ih (N - n) (by omega) (above ++ stack) top' lasts'

/-- Every state has grown what lies on it. -/
def Rising (p : Parser) (token : Token) (w : List Nat) : Prop :=
  ∀ u v s y, w = u ++ v ++ s :: y → p.Grows token s v

theorem Rising.reduce {q : Production} (rising : p.Rising token w)
    (decided : p.action ((w ++ base).headD 0) token = .reduce k)
    (found : p.grammar.production? k = some q) (enough : q.length ≤ w.length)
    (goes : p.table.goto? (((w ++ base).drop q.length).headD 0) q.lhs = some t) :
    p.Rising token (t :: w.drop q.length) := by
  intro u v s y split
  rcases u with _ | ⟨_, u⟩
  · rcases v with _ | ⟨_, v⟩
    · exact grows_nil p token s
    · -- the target has just been put on what was left
      obtain ⟨rfl, left⟩ : t = _ ∧ w.drop q.length = v ++ s :: y := by simpa using split
      have whole : w = w.take q.length ++ v ++ s :: y := by
        rw [List.append_assoc, ← left, List.take_append_drop]
      have popped : (w.take q.length).length = q.length := by rw [List.length_take]; omega
      have piled := rising [] (w.take q.length ++ v) s y whole
      have rest : (w.take q.length ++ v).drop q.length = v := List.drop_left' popped
      rw [← rest]
      refine piled.reduce ?_ found (by rw [List.length_append]; omega) ?_
      · rw [whole] at decided
        cases head : w.take q.length ++ v <;> simpa [head] using decided
      · rw [List.drop_append_of_le_length enough, left] at goes
        rw [rest]
        cases v <;> simpa using goes
  -- below the target nothing has changed
  · obtain ⟨rfl, left⟩ : t = _ ∧ w.drop q.length = u ++ v ++ s :: y := by simpa using split
    apply rising (w.take q.length ++ u) v s y
    rw [List.append_assoc, List.append_assoc, ← List.append_assoc u, ← left, List.take_append_drop]

/-! ## Between two tokens -/

/-- The stack `base` has been cut down to a part, on which the different states `w` piled up. -/
structure Piled (p : Parser) (token : Token) (base σ w : List Nat) (kept : Nat) : Prop where
  split : σ = w ++ base.drop kept
  rising : p.Rising token w
  distinct : w.Nodup
  bounded : ∀ s ∈ w, s < p.automaton.size

theorem WellBuilt.target_lt (built : p.WellBuilt) {X : Symbol}
    (edge : p.automaton.target? s X = some t) : t < p.automaton.size := by
  obtain ⟨inner, items, found, item, member, next⟩ := built.tracks.edge s X t edge
  obtain ⟨t', after, edge', found', -⟩ :=
    built.tracks.advance s items item X found member next inner
  cases edge.symm.trans edge'
  exact (List.getElem?_eq_some_iff.mp found').1

theorem WellBuilt.goto_lt (built : p.WellBuilt) {q : Production}
    (found : p.grammar.production? k = some q) (goes : p.table.goto? s q.lhs = some t) :
    t < p.automaton.size := by
  have nonterminal := built.wellFormed.isNonterminal_lhs (Grammar.mem_of_production? found)
  have other := Grammar.not_isTerminal_of_isNonterminal nonterminal
  exact built.target_lt ((built.goto?_iff other).mp goes)

/-- A reduction goes on piling up different states, unless a state would pile up on itself. -/
theorem Piled.reduce {σ : List Nat} {kept : Nat} {q : Production} (built : p.WellBuilt)
    (piled : p.Piled token base σ w kept) (decided : p.action (σ.headD 0) token = .reduce k)
    (found : p.grammar.production? k = some q)
    (goes : p.table.goto? ((σ.drop q.length).headD 0) q.lhs = some t)
    (once : ∀ v, ¬ p.Grows token t (t :: v)) :
    ∃ w' kept', p.Piled token base (t :: σ.drop q.length) w' kept' := by
  obtain ⟨rfl, rising, distinct, bounded⟩ := piled
  have bound := built.goto_lt found goes
  rcases Nat.lt_or_ge w.length q.length with more | enough
  · -- all that was piled up is popped, and some of `base` with it
    refine ⟨[t], kept + (q.length - w.length), ?_, ?_, List.nodup_singleton t, by simpa using bound⟩
    · rw [List.drop_append, List.drop_drop, List.drop_of_length_le (Nat.le_of_lt more)]
      rfl
    · intro u v s y split
      rcases u with _ | ⟨_, u⟩
      · rcases v with _ | ⟨_, v⟩
        · exact grows_nil p token s
        · simp at split
      · simp at split
  · have rising' := rising.reduce decided found enough goes
    refine ⟨t :: w.drop q.length, kept, ?_, rising', ?_, ?_⟩
    · rw [List.drop_append_of_le_length enough]
      rfl
    · refine List.nodup_cons.mpr ⟨fun again => ?_, distinct.sublist (List.drop_sublist _ _)⟩
      obtain ⟨v, y, left⟩ := List.append_of_mem again
      exact once v (rising' [] (t :: v) t y (by rw [left]; rfl))
    · intro s listed
      rcases List.mem_cons.mp listed with rfl | old
      · exact bound
      · exact bounded s (List.mem_of_mem_drop old)

/-- While the token ahead stays, all that a run does that ends is to pile up different states. -/
theorem WellBuilt.exists_piled (built : p.WellBuilt) {base stack : List StackEntry}
    {rest : List Token} (lasts : p.Lasts N ⟨base, token :: rest⟩)
    (moves : p.Moves n ⟨base, token :: rest⟩ ⟨stack, token :: rest⟩) :
    ∃ w kept, p.Piled token (statesOf base) (statesOf stack) w kept := by
  induction n generalizing stack with
  | zero =>
    generalize same : (⟨stack, token :: rest⟩ : Situation) = z at moves
    cases moves
    cases same
    exact ⟨[], 0, rfl, by intro u v s y split; simp at split, List.nodup_nil, by simp⟩
  | succ n ih =>
    obtain ⟨⟨before, tokens⟩, first, step⟩ := moves.last
    have same : tokens = token :: rest :=
      first.tokens.eq_of_length_le (tokens_of_move step).length_le
    subst same
    obtain ⟨w, kept, piled⟩ := ih first
    obtain ⟨_, _, ahead, ⟨t, -, same⟩ | ⟨k, q, t, decided, found, -, goes, same⟩⟩ :=
      move_cases step
    · -- a shift would have taken the token
      have shorter := congrArg (fun z => z.tokens.length) same
      have whole := congrArg List.length (show token :: rest = _ from ahead)
      simp only [List.length_cons] at shorter whole
      omega
    · cases ahead
      obtain rfl : stack = _ := congrArg Situation.stack same
      rw [topState_eq] at decided
      rw [topState_eq, statesOf_drop] at goes
      rw [statesOf_cons, statesOf_drop]
      apply piled.reduce built decided found goes
      intro v grows
      -- a state that piles up on itself would do so for ever
      exact grows.not_lasts _ rest rfl (lasts.later moves).2

/-! ## Counting stacks -/

/-- The words of at most `length` letters below `bound`. -/
def words (bound : Nat) : Nat → List (List Nat)
  | 0 => [[]]
  | length + 1 => [] :: (List.range bound).flatMap fun s => (words bound length).map (s :: ·)

theorem length_words_le (bound length : Nat) : (words bound length).length ≤ (bound + 1) ^ length := by
  induction length with
  | zero => exact Nat.le_refl _
  | succ length ih =>
    have longer : (words bound (length + 1)).length = bound * (words bound length).length + 1 := by
      simp [words, List.length_flatMap]
    have positive : 1 ≤ (bound + 1) ^ length := Nat.one_le_pow _ _ (Nat.succ_pos _)
    calc (words bound (length + 1)).length
        = bound * (words bound length).length + 1 := longer
      _ ≤ bound * (bound + 1) ^ length + (bound + 1) ^ length :=
        Nat.add_le_add (Nat.mul_le_mul_left _ ih) positive
      _ = (bound + 1) ^ (length + 1) := by rw [pow_succ, Nat.mul_comm _ (bound + 1), Nat.succ_mul]

theorem mem_words {bound length : Nat} (short : w.length ≤ length) (below : ∀ s ∈ w, s < bound) :
    w ∈ words bound length := by
  induction length generalizing w with
  | zero =>
    rw [List.eq_nil_of_length_eq_zero (Nat.le_zero.mp short)]
    exact List.mem_singleton.mpr rfl
  | succ length ih =>
    cases w with
    | nil => exact List.mem_cons_self
    | cons s w =>
      refine List.mem_cons_of_mem _ (List.mem_flatMap.mpr ⟨s, List.mem_range.mpr ?_, ?_⟩)
      · exact below s List.mem_cons_self
      · exact List.mem_map_of_mem (ih (Nat.le_of_succ_le_succ short)
          fun s listed => below s (List.mem_cons_of_mem _ listed))

/-- The stacks there can be between two tokens. -/
def stacksOver (size : Nat) (base : List Nat) : List (List Nat) :=
  (List.range (base.length + 1)).flatMap fun kept => (words size size).map (· ++ base.drop kept)

theorem length_stacksOver_le (size : Nat) (base : List Nat) :
    (stacksOver size base).length ≤ (base.length + 1) * (size + 1) ^ size := by
  have each : (stacksOver size base).length = (base.length + 1) * (words size size).length := by
    simp [stacksOver, List.length_flatMap]
  rw [each]
  exact Nat.mul_le_mul_left _ (length_words_le size size)

theorem Piled.length_le {σ : List Nat} {kept : Nat} (piled : p.Piled token base σ w kept) :
    w.length ≤ p.automaton.size := by
  have subset : w ⊆ List.range p.automaton.size := fun s listed =>
    List.mem_range.mpr (piled.bounded s listed)
  simpa using (piled.distinct.subperm subset).length_le

theorem Piled.mem_stacksOver {σ : List Nat} {kept : Nat} (piled : p.Piled token base σ w kept) :
    σ ∈ stacksOver p.automaton.size base := by
  have short := mem_words piled.length_le piled.bounded
  rw [piled.split]
  -- nothing is kept of `base` beyond its own length
  have clipped : base.drop kept = base.drop (min kept base.length) := by
    rcases Nat.le_total kept base.length with le | le
    · rw [Nat.min_eq_left le]
    · rw [Nat.min_eq_right le, List.drop_of_length_le le, List.drop_length]
  refine List.mem_flatMap.mpr ⟨min kept base.length, ?_, ?_⟩
  · exact List.mem_range.mpr (by omega)
  · rw [clipped]
    exact List.mem_map_of_mem short

/-- Between two tokens a run that ends visits each of these stacks at most once. -/
theorem WellBuilt.moves_le (built : p.WellBuilt) {base stack : List StackEntry}
    {rest : List Token} (lasts : p.Lasts N ⟨base, token :: rest⟩)
    (moves : p.Moves n ⟨base, token :: rest⟩ ⟨stack, token :: rest⟩) :
    n + 1 ≤ (base.length + 1) * (p.automaton.size + 1) ^ p.automaton.size ∧
      stack.length ≤ base.length + p.automaton.size := by
  have visits (i : Fin (n + 1)) : ∃ visited, p.Moves i.val ⟨base, token :: rest⟩
      ⟨visited, token :: rest⟩ := by
    obtain ⟨more, total⟩ : ∃ more, n = i.val + more := ⟨n - i.val, by omega⟩
    rw [total] at moves
    obtain ⟨⟨visited, tokens⟩, first, later⟩ := moves.split
    obtain rfl : tokens = token :: rest :=
      first.tokens.eq_of_length_le later.tokens.length_le
    exact ⟨visited, first⟩
  choose visited reached using visits
  constructor
  -- two visits with the same states have as many moves to go, so they are one visit
  · have injective : Function.Injective fun i => statesOf (visited i) := by
      intro i j same
      have lastsI := lasts.later (reached i)
      have lastsJ := lasts.later (reached j)
      have alike : Alike ⟨visited i, token :: rest⟩ ⟨visited j, token :: rest⟩ := ⟨same, rfl⟩
      have equal := (lastsI.2.alike alike).unique lastsJ.2
      exact Fin.ext (by omega)
    have subset : List.ofFn (fun i => statesOf (visited i)) ⊆
        stacksOver p.automaton.size (statesOf base) := by
      intro σ listed
      obtain ⟨i, rfl⟩ := List.mem_ofFn.mp listed
      obtain ⟨w, kept, piled⟩ := built.exists_piled lasts (reached i)
      exact piled.mem_stacksOver
    have bound := ((List.nodup_ofFn.mpr injective).subperm subset).length_le
    rw [List.length_ofFn] at bound
    have total := length_stacksOver_le p.automaton.size (statesOf base)
    rw [length_statesOf] at total
    exact bound.trans total
  · obtain ⟨w, kept, piled⟩ := built.exists_piled lasts moves
    have height := congrArg List.length piled.split
    rw [length_statesOf, List.length_append, List.length_drop, length_statesOf] at height
    have short := piled.length_le
    omega

/-! ## The whole run -/

/-- Bounds the moves with `taken` tokens shifted. -/
def stage (size taken : Nat) : Nat := (taken * (size + 1) + 1) * (size + 1) ^ size

theorem stage_mono (size : Nat) {i j : Nat} (le : i ≤ j) : stage size i ≤ stage size j :=
  Nat.mul_le_mul_right _ (Nat.succ_le_succ (Nat.mul_le_mul_right _ le))

/-- Up to the last token shifted, and from there. -/
theorem WellBuilt.exists_stage (built : p.WellBuilt) {tokens : List Token}
    (lasts : p.Lasts N ⟨[], tokens⟩) (moves : p.Moves n ⟨[], tokens⟩ x) :
    ∃ taken base i j, tokens.length = taken + x.tokens.length ∧ n = i + j ∧
      p.Moves i ⟨[], tokens⟩ ⟨base, x.tokens⟩ ∧ p.Moves j ⟨base, x.tokens⟩ x ∧
      base.length ≤ taken * (p.automaton.size + 1) ∧
      i ≤ taken * stage p.automaton.size taken := by
  induction n generalizing x with
  | zero =>
    generalize same : (⟨[], tokens⟩ : Situation) = start at moves
    cases moves
    cases same
    exact ⟨0, [], 0, 0, (Nat.zero_add _).symm, rfl, .rest _, .rest _, by simp, by simp⟩
  | succ n ih =>
    obtain ⟨⟨stack, ahead⟩, first, step⟩ := moves.last
    obtain ⟨taken, base, i, j, total, rfl, before, since, height, bound⟩ := ih first
    obtain ⟨token, rest, same, ⟨t, -, rfl⟩ | ⟨k, q, t, -, -, -, -, rfl⟩⟩ := move_cases step
    · obtain rfl : ahead = token :: rest := same
      -- a shift ends the stage, which had at most one move for each stack there can be
      obtain ⟨short, tall⟩ := built.moves_le (lasts.later before).2 since
      have here : j + 1 ≤ stage p.automaton.size taken :=
        short.trans (Nat.mul_le_mul_right _ (Nat.succ_le_succ height))
      refine ⟨taken + 1, _, i + j + 1, 0, ?_, rfl, moves, .rest _, ?_, ?_⟩
      · simp only [List.length_cons] at total ⊢
        omega
      · rw [Nat.succ_mul]
        change stack.length + 1 ≤ _
        omega
      · calc i + j + 1
            ≤ taken * stage p.automaton.size taken + stage p.automaton.size taken := by omega
          _ = (taken + 1) * stage p.automaton.size taken := (Nat.succ_mul _ _).symm
          _ ≤ (taken + 1) * stage p.automaton.size (taken + 1) :=
            Nat.mul_le_mul_left _ (stage_mono _ (Nat.le_succ _))
    · exact ⟨taken, base, i, j + 1, total, rfl, before, since.trans (.one step), height, bound⟩

/-- The moves of a run that ends are bounded by the tokens it has shifted. -/
theorem WellBuilt.moves_lt (built : p.WellBuilt) {tokens : List Token}
    (lasts : p.Lasts N ⟨[], tokens⟩) (moves : p.Moves n ⟨[], tokens⟩ x) {taken : Nat}
    (total : tokens.length = taken + x.tokens.length) :
    n < (taken + 1) ^ 2 * (p.automaton.size + 1) ^ (p.automaton.size + 1) := by
  obtain ⟨taken', base, i, j, total', rfl, before, since, height, bound⟩ :=
    built.exists_stage lasts moves
  obtain rfl : taken = taken' := by omega
  -- the last stage is bounded like the ones before it
  have here : j + 1 ≤ stage p.automaton.size taken := by
    obtain ⟨stack, ahead⟩ := x
    cases ahead with
    | nil =>
      generalize same : (⟨base, []⟩ : Situation) = z at since
      have positive : 1 ≤ stage p.automaton.size taken :=
        Nat.mul_pos (Nat.succ_pos _) (Nat.pow_pos (Nat.succ_pos _))
      cases since with
      | rest => exact positive
      | more step =>
        subst same
        cases step
    | cons token rest =>
      obtain ⟨short, -⟩ := built.moves_le (lasts.later before).2 since
      exact short.trans (Nat.mul_le_mul_right _ (Nat.succ_le_succ height))
  have wide : taken * (p.automaton.size + 1) + 1 ≤ (taken + 1) * (p.automaton.size + 1) := by
    rw [Nat.succ_mul]
    omega
  calc i + j
      < taken * stage p.automaton.size taken + stage p.automaton.size taken := by omega
    _ = (taken + 1) * stage p.automaton.size taken := (Nat.succ_mul _ _).symm
    _ ≤ (taken + 1) * ((taken + 1) * (p.automaton.size + 1) *
          (p.automaton.size + 1) ^ p.automaton.size) :=
      Nat.mul_le_mul_left _ (Nat.mul_le_mul_right _ wide)
    _ = (taken + 1) ^ 2 * (p.automaton.size + 1) ^ (p.automaton.size + 1) := by ring

theorem lt_stepBudget {length taken : Nat} {source : List Char} (tokens : length ≤ source.length + 1)
    (le : taken ≤ length)
    (moves : n < (taken + 1) ^ 2 * (p.automaton.size + 1) ^ (p.automaton.size + 1)) :
    n < p.stepBudget source := by
  refine moves.trans_le (Nat.mul_le_mul (Nat.pow_le_pow_left (by omega) 2) ?_)
  calc (p.automaton.size + 1) ^ (p.automaton.size + 1)
      ≤ (p.automaton.size + 2) ^ (p.automaton.size + 1) := Nat.pow_le_pow_left (by omega) _
    _ ≤ (p.automaton.size + 2) ^ (p.automaton.size + 4) :=
      Nat.pow_le_pow_right (by omega) (by omega)

/-- The step budget is enough: with it a run ends if it ends at all, and in the same way. -/
theorem WellBuilt.runOver_eq_some_iff (built : p.WellBuilt) {text : String} {outcome : Outcome} :
    p.runOver (p.lexer.scan text) = some outcome ↔
      ∃ budget, p.run budget (.start (p.lexer.scan text)) = some outcome := by
  constructor
  · exact fun ended => ⟨_, ended⟩
  · rintro ⟨budget, ended⟩
    have stands := stands_start p.lexer text
    obtain ⟨n, y, within, moves, stuck, -⟩ := built.moves_of_run stands ended
    have total : (p.lexer.tokenization text).tokens.length =
        ((p.lexer.tokenization text).tokens.length - y.tokens.length) + y.tokens.length := by
      have shorter : y.tokens.length ≤ (p.lexer.tokenization text).tokens.length :=
        moves.tokens.length_le
      omega
    have length : text.toList.length = text.length := String.length_toList
    have enough : n < p.stepBudget text.toList :=
      lt_stepBudget (length ▸ (p.lexer.reads_scan text).2) (Nat.sub_le _ _)
        (built.moves_lt ⟨y, moves, stuck⟩ moves total)
    obtain ⟨d, stands, later⟩ := built.run_of_moves stands moves
    obtain ⟨more, rfl⟩ : ∃ more, budget = n + (more + 1) := ⟨budget - n - 1, by omega⟩
    obtain ⟨more', given⟩ : ∃ more, p.stepBudget text.toList = n + (more + 1) :=
      ⟨p.stepBudget text.toList - n - 1, by omega⟩
    rw [later, run] at ended
    rw [runOver, show (p.lexer.scan text).source = text.toList from rfl, given, later, run]
    obtain ⟨outcome', ends, -⟩ := step_of_stuck stands stuck
    rw [ends] at ended ⊢
    exact ended

end ShiftReduce.Parser
