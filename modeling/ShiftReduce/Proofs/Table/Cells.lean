import ShiftReduce.Proofs.Automaton.Paths
import ShiftReduce.Proofs.Table.Grid

/-!
# Cells of a table

A cell holds one of the actions requested for it. In a table without conflicts no two requests for a
cell differ, and every request is granted.
-/
namespace ShiftReduce

/-! ## One cell -/

theorem Action.contest_self (c : Action) : c.contest c = none := by
  cases c <;> simp [contest]

namespace Cell

variable {g : Grammar} {n : Nat} {s : Symbol} {cell : Cell} {act : Action}

theorem action_receive (candidate : Action)
    (held : (receive g n s cell candidate).action = some act) :
    cell.action = some act ∨ act = candidate := by
  unfold receive at held
  cases present : cell.action with
  | none => simp_all
  | some current =>
    simp only [present] at held
    split at held
    next => exact Or.inl (present ▸ held)
    next kind chosen rejected settled =>
      cases held
      cases current <;> cases candidate <;> simp [Action.contest] at settled <;> grind

theorem action_foldl (candidates : List Action)
    (held : (candidates.foldl (receive g n s) cell).action = some act) :
    cell.action = some act ∨ act ∈ candidates := by
  induction candidates generalizing cell with
  | nil => exact Or.inl held
  | cons candidate rest ih =>
    rcases ih held with before | later
    · rcases action_receive candidate before with old | rfl
      · exact Or.inl old
      · exact Or.inr List.mem_cons_self
    · exact Or.inr (List.mem_cons_of_mem _ later)

theorem conflicts_receive {current : Action} (present : cell.action = some current)
    (candidate : Action) : current.contest candidate = none ∧ receive g n s cell candidate = cell ∨
      ∃ conflict, (receive g n s cell candidate).conflicts = cell.conflicts ++ [conflict] := by
  unfold receive
  simp only [present]
  split
  next settled => exact Or.inl ⟨settled, rfl⟩
  next => exact Or.inr ⟨_, rfl⟩

theorem conflicts_foldl (candidates : List Action) (cell : Cell) :
    ∃ new, (candidates.foldl (receive g n s) cell).conflicts = cell.conflicts ++ new := by
  induction candidates generalizing cell with
  | nil => exact ⟨[], (List.append_nil _).symm⟩
  | cons candidate rest ih =>
    obtain ⟨later, rests⟩ := ih (receive g n s cell candidate)
    rw [List.foldl_cons, rests]
    -- an empty cell takes the candidate, an occupied one may note a conflict
    cases present : cell.action with
    | none => exact ⟨later, by simp [receive, present]⟩
    | some current =>
      rcases conflicts_receive present candidate with ⟨-, same⟩ | ⟨conflict, added⟩
      · exact ⟨later, by rw [same]⟩
      · exact ⟨conflict :: later, by rw [added, List.append_assoc]; rfl⟩

/-- Without a conflict an occupied cell stays as it is, and no candidate contests it. -/
theorem foldl_of_occupied {current : Action} (present : cell.action = some current)
    (candidates : List Action)
    (quiet : (candidates.foldl (receive g n s) cell).conflicts = cell.conflicts) :
    candidates.foldl (receive g n s) cell = cell ∧ ∀ c ∈ candidates, current.contest c = none := by
  induction candidates with
  | nil => exact ⟨rfl, by simp⟩
  | cons candidate rest ih =>
    rw [List.foldl_cons] at quiet ⊢
    rcases conflicts_receive present candidate with ⟨settled, same⟩ | ⟨conflict, added⟩
    · rw [same] at quiet ⊢
      obtain ⟨kept, each⟩ := ih quiet
      exact ⟨kept, List.forall_mem_cons.mpr ⟨settled, each⟩⟩
    -- a conflict noted once is never forgotten
    · obtain ⟨later, rests⟩ := conflicts_foldl (g := g) (n := n) (s := s) rest
        (receive g n s cell candidate)
      have lengths := congrArg List.length (quiet.symm.trans (rests.trans (by rw [added])))
      simp at lengths

/-- Without a conflict the first candidate takes the cell, and no other contests it. -/
theorem foldl_vacant {candidates : List Action} (member : act ∈ candidates)
    (quiet : (candidates.foldl (receive g n s) vacant).conflicts = []) :
    ∃ first ∈ candidates, (candidates.foldl (receive g n s) vacant).action = some first ∧
      (first = act ∨ first.contest act = none) := by
  cases candidates with
  | nil => cases member
  | cons first rest =>
    have taken : (⟨some first, []⟩ : Cell).action = some first := rfl
    obtain ⟨kept, each⟩ := foldl_of_occupied taken rest quiet
    refine ⟨first, List.mem_cons_self, congrArg Cell.action kept, ?_⟩
    rcases List.mem_cons.mp member with same | later
    · exact Or.inl same.symm
    · exact Or.inr (each act later)

/-- Candidates that are all the same leave no conflict. -/
theorem conflicts_of_same (candidates : List Action)
    (same : ∀ c ∈ candidates, ∀ d ∈ candidates, c = d) :
    (candidates.foldl (receive g n s) vacant).conflicts = [] := by
  cases candidates with
  | nil => rfl
  | cons first rest =>
    have each : ∀ c ∈ rest, c = first := fun c member =>
      same c (List.mem_cons_of_mem _ member) first List.mem_cons_self
    have kept : rest.foldl (receive g n s) ⟨some first, []⟩ = ⟨some first, []⟩ := by
      clear same
      induction rest with
      | nil => rfl
      | cons c rest ih =>
        rw [List.foldl_cons, each c List.mem_cons_self]
        have stays : receive g n s ⟨some first, []⟩ first = ⟨some first, []⟩ := by
          simp [receive, Action.contest_self]
        rw [stays]
        exact ih fun d member => each d (List.mem_cons_of_mem _ member)
    exact congrArg Cell.conflicts kept

end Cell

namespace Table

variable {g : Grammar} {a : Analysis} {m : Automaton} {n : Nat} {items : ItemSet} {X : Symbol}
  {act : Action}

theorem mem_candidates {requests : List (Symbol × Action)} :
    act ∈ candidates requests X ↔ (X, act) ∈ requests := by
  simp only [candidates, List.mem_map, List.mem_filter, decide_eq_true_eq]
  constructor
  · rintro ⟨⟨_, _⟩, ⟨member, rfl⟩, rfl⟩
    exact member
  · intro member
    exact ⟨(X, act), ⟨member, rfl⟩, rfl⟩

/-! ## Requests -/

/-- What a state asks for: its edges, to accept, and its reductions. -/
inductive Requested (g : Grammar) (m : Automaton) (n : Nat) (items : ItemSet) :
    Symbol → Action → Prop
  | shift {X : Symbol} {t : Nat} (edge : (X, t) ∈ m.edgesOf n) (terminal : g.isTerminal X) :
      Requested g m n items X (.shift t)
  | goto {X : Symbol} {t : Nat} (edge : (X, t) ∈ m.edgesOf n) (nonterminal : ¬ g.isTerminal X) :
      Requested g m n items X (.goto t)
  | accept (accepting : items.isAccepting g) : Requested g m n items .endOfInput .accept
  | reduce {item : Item} {p : Production} (member : item ∈ items)
      (completed : item.completed? g = some p) (inner : g.accept ≠ some p.index) :
      Requested g m n items item.lookahead (.reduce p.index)

theorem mem_reductions {item : Item} {p : Production} :
    (item, p) ∈ items.reductions g ↔ item ∈ items ∧ item.completed? g = some p := by
  simp only [ItemSet.reductions, List.mem_filterMap, Option.map_eq_some_iff, Prod.mk.injEq]
  constructor
  · rintro ⟨_, member, _, completed, rfl, rfl⟩
    exact ⟨member, completed⟩
  · rintro ⟨member, completed⟩
    exact ⟨item, member, p, completed, rfl, rfl⟩

theorem mem_requests : (X, act) ∈ requests g m n items ↔ Requested g m n items X act := by
  simp only [requests, List.mem_append, List.mem_map, List.mem_filter, decide_eq_true_eq]
  constructor
  · rintro ((⟨⟨Y, t⟩, edge, same⟩ | accepting) | ⟨⟨item, p⟩, ⟨reduction, inner⟩, same⟩)
    -- an edge, the request to accept, or a reduction
    · by_cases terminal : g.isTerminal Y
      · rw [if_pos terminal] at same
        cases same
        exact .shift edge terminal
      · rw [if_neg terminal] at same
        cases same
        exact .goto edge terminal
    · split at accepting
      next accepts =>
        cases List.mem_singleton.mp accepting
        exact .accept accepts
      next => cases accepting
    · obtain ⟨member, completed⟩ := mem_reductions.mp reduction
      cases same
      exact .reduce member completed inner
  · rintro (⟨edge, terminal⟩ | ⟨edge, nonterminal⟩ | accepting | ⟨member, completed, inner⟩)
    · exact Or.inl (Or.inl ⟨_, edge, by rw [if_pos terminal]⟩)
    · exact Or.inl (Or.inl ⟨_, edge, by rw [if_neg nonterminal]⟩)
    · exact Or.inl (Or.inr (by rw [if_pos accepting]; exact List.mem_singleton.mpr rfl))
    · exact Or.inr ⟨_, ⟨mem_reductions.mpr ⟨member, completed⟩, inner⟩, rfl⟩

/-! ## Cells -/

theorem cellAt_eq (found : m.state? n = some items) (known : X.index < g.numSymbols) :
    cellAt g m n X = cellOf g (requests g m n items) n X := by
  have column : X.index < numColumns g := Nat.lt_of_lt_of_le known (Nat.le_max_left _ 1)
  rw [cellAt, if_pos column, found]
  rfl

/-- A cell is vacant, or a state of the automaton asked for it. -/
theorem cellAt_cases (g : Grammar) (m : Automaton) (n : Nat) (X : Symbol) :
    cellAt g m n X = .vacant ∨
      ∃ items, m.state? n = some items ∧ cellAt g m n X = cellOf g (requests g m n items) n X := by
  unfold cellAt
  split
  · cases found : m.state? n with
    | none => exact Or.inl rfl
    | some items => exact Or.inr ⟨items, rfl, rfl⟩
  · exact Or.inl rfl

theorem cell?_eq (found : m.state? n = some items) (known : X.index < g.numSymbols) :
    (ofAutomaton g m).cell? n X = (cellOf g (requests g m n items) n X).action := by
  rw [(shows_ofAutomaton g m n X).action, cellAt_eq found known]

theorem requested_of_cell? (held : (ofAutomaton g m).cell? n X = some act) :
    ∃ items, m.state? n = some items ∧ Requested g m n items X act := by
  rw [(shows_ofAutomaton g m n X).action] at held
  rcases cellAt_cases g m n X with vacant | ⟨items, found, asked⟩
  · rw [vacant] at held
    cases held
  · rw [asked] at held
    rcases Cell.action_foldl _ held with nothing | member
    · cases nothing
    · exact ⟨items, found, mem_requests.mp (mem_candidates.mp member)⟩

theorem isContested_eq_false_iff :
    (ofAutomaton g m).isContested = false ↔ ∀ n X, (cellAt g m n X).conflicts = [] := by
  rw [isContested, Bool.not_eq_false', List.isEmpty_iff]
  constructor
  · intro quiet n X
    rw [← (shows_ofAutomaton g m n X).conflicts, quiet]
    rfl
  · refine fun quiet => List.eq_nil_iff_forall_not_mem.mpr fun conflict listed => ?_
    rw [mem_conflicts_iff_cellAt, quiet] at listed
    cases listed

/-! ## Tables without conflicts -/

variable (wf : g.WellFormed) (tracks : m.Tracks g a)

include wf tracks in
theorem Requested.known (found : m.state? n = some items) (requested : Requested g m n items X act) :
    X.index < g.numSymbols := by
  have edges {t : Nat} (edge : (X, t) ∈ m.edgesOf n) : X.index < g.numSymbols := by
    obtain ⟨name, named⟩ := tracks.named wf (tracks.mem_edgesOf_iff.mp edge)
    exact named.index_lt
  cases requested with
  | shift edge => exact edges edge
  | goto edge => exact edges edge
  | accept => exact Grammar.Named.index_lt ⟨_, wf.ending⟩
  | reduce member => exact Grammar.index_lt_of_isTerminal (tracks.terminal n items _ found member)

include tracks in
/-- Two requests for one cell are the same if neither contests the other. -/
theorem Requested.same_of_contest (found : m.state? n = some items) {c d : Action}
    (first : Requested g m n items X c) (second : Requested g m n items X d)
    (settled : c.contest d = none) : c = d := by
  have inner {t : Nat} (edge : (Symbol.endOfInput, t) ∈ m.edgesOf n) : False :=
    (tracks.edge n _ t (tracks.mem_edgesOf_iff.mp edge)).1 rfl
  have target {t u : Nat} (one : (X, t) ∈ m.edgesOf n) (other : (X, u) ∈ m.edgesOf n) : t = u := by
    rw [tracks.mem_edgesOf_iff] at one other
    exact Option.some.inj (one.symm.trans other)
  -- edges are over different symbols, and never over the end of the input
  cases first with
  | shift edge terminal =>
    cases second with
    | shift edge' => rw [target edge edge']
    | goto _ nonterminal => exact absurd terminal nonterminal
    | accept => exact (inner edge).elim
    | reduce => cases settled
  | goto edge nonterminal =>
    cases second with
    | shift _ terminal => exact absurd terminal nonterminal
    | goto edge' => rw [target edge edge']
    | accept => exact (inner edge).elim
    | reduce member => exact absurd (tracks.terminal n items _ found member) nonterminal
  | accept =>
    generalize ending : Symbol.endOfInput = Y at second
    cases second with
    | shift edge => exact (inner (ending ▸ edge)).elim
    | goto edge => exact (inner (ending ▸ edge)).elim
    | accept => rfl
    | reduce => cases settled
  | @reduce item p member =>
    generalize ahead : item.lookahead = Y at second
    cases second with
    | shift => cases settled
    | goto _ nonterminal =>
      exact absurd (ahead ▸ tracks.terminal n items item found member) nonterminal
    | accept => cases settled
    | reduce =>
      -- two reductions contest each other unless they are of one production
      by_contra different
      simp only [Action.contest] at settled
      split at settled
      next same => exact different (congrArg _ same)
      next => split at settled <;> cases settled

/-- A request without rivals is granted. -/
theorem cell?_of_unrivalled (found : m.state? n = some items) (known : X.index < g.numSymbols)
    (requested : Requested g m n items X act)
    (alone : ∀ c, Requested g m n items X c → c = act) :
    (ofAutomaton g m).cell? n X = some act := by
  have same (c : Action) (listed : c ∈ candidates (requests g m n items) X) : c = act :=
    alone c (mem_requests.mp (mem_candidates.mp listed))
  rw [cell?_eq found known]
  obtain ⟨first, member, held, -⟩ := Cell.foldl_vacant
    (mem_candidates.mpr (mem_requests.mpr requested))
    (Cell.conflicts_of_same _ fun c one d other => (same c one).trans (same d other).symm)
  exact same first member ▸ held

include wf tracks in
/-- Without conflicts every request is granted. -/
theorem cell?_of_requested (quiet : (ofAutomaton g m).isContested = false)
    (found : m.state? n = some items) (requested : Requested g m n items X act) :
    (ofAutomaton g m).cell? n X = some act := by
  have known := requested.known wf tracks found
  rw [cell?_eq found known]
  obtain ⟨first, member, held, settled⟩ := Cell.foldl_vacant
    (mem_candidates.mpr (mem_requests.mpr requested))
    (cellAt_eq found known ▸ isContested_eq_false_iff.mp quiet n X)
  rcases settled with same | settled
  · exact same ▸ held
  · have first := mem_requests.mp (mem_candidates.mp member)
    rw [← first.same_of_contest tracks found requested settled]
    exact held

theorem isContested_of_same (same : ∀ n items X c d, m.state? n = some items →
    Requested g m n items X c → Requested g m n items X d → c = d) :
    (ofAutomaton g m).isContested = false := by
  apply isContested_eq_false_iff.mpr
  intro n X
  rcases cellAt_cases g m n X with vacant | ⟨items, found, asked⟩
  · rw [vacant]
    rfl
  rw [asked]
  apply Cell.conflicts_of_same _
  intro c first d second
  exact same n items X c d found (mem_requests.mp (mem_candidates.mp first))
    (mem_requests.mp (mem_candidates.mp second))

end Table

end ShiftReduce
