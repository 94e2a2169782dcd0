import Mathlib.Data.List.Basic
import ShiftReduce.Proofs.Grammar.WellFormed
import ShiftReduce.Table.Basic

/-!
# The grid of a table

All states write into one array, and the conflicts of all cells go into one list. Still every cell is
settled by itself: it holds what the actions asked of it come to one after the other, and what is
recorded of its place are the conflicts among these.
-/
namespace ShiftReduce

/-- A cell: its action, if any, and the conflicts it went through. -/
structure Cell where
  action : Option Action
  conflicts : List Conflict

namespace Cell

def vacant : Cell := ⟨none, []⟩

/-- Add one more candidate for the cell of `state` and `s`. -/
def receive (g : Grammar) (state : Nat) (s : Symbol) (cell : Cell) (candidate : Action) : Cell :=
  match cell.action with
  | none => { cell with action := some candidate }
  | some current =>
    match current.contest candidate with
    | none => cell
    | some (kind, chosen, rejected) =>
      ⟨some chosen, cell.conflicts ++ [⟨state, s, g.name s, kind, chosen, rejected⟩]⟩

end Cell

namespace Conflict

def isAt (state : Nat) (s : Symbol) (c : Conflict) : Bool := c.state = state && c.symbol = s

theorem isAt_iff {c : Conflict} {n : Nat} {s : Symbol} :
    c.isAt n s ↔ c.state = n ∧ c.symbol = s := by
  simp [isAt]

theorem precedes_iff {c d : Conflict} : c.precedes d ↔
    c.state < d.state ∨ c.state = d.state ∧ c.symbol.index ≤ d.symbol.index := by
  simp [precedes]

theorem precedes_trans (b c d : Conflict) (first : b.precedes c) (second : c.precedes d) :
    b.precedes d := by
  rw [precedes_iff] at *
  omega

theorem precedes_total (c d : Conflict) : c.precedes d || d.precedes c := by
  rw [Bool.or_eq_true, precedes_iff, precedes_iff]
  omega

/-- Sorting keeps the order of the conflicts of a place. -/
theorem filter_mergeSort (conflicts : List Conflict) (n : Nat) (s : Symbol) :
    (conflicts.mergeSort precedes).filter (isAt n s) = conflicts.filter (isAt n s) := by
  have tied : (conflicts.filter (isAt n s)).Pairwise fun c d => c.precedes d := by
    refine List.pairwise_filter.mpr (List.pairwise_of_forall fun c d inC inD => ?_)
    obtain ⟨stateC, symbolC⟩ := isAt_iff.mp inC
    obtain ⟨stateD, symbolD⟩ := isAt_iff.mp inD
    exact precedes_iff.mpr (Or.inr ⟨by omega, Nat.le_of_eq (by rw [symbolC, symbolD])⟩)
  have kept := (List.sublist_mergeSort precedes_trans precedes_total tied
    List.filter_sublist).filter (isAt n s)
  simp only [List.filter_filter, Bool.and_self] at kept
  refine (kept.eq_of_length ?_).symm
  exact ((List.mergeSort_perm conflicts precedes).filter (isAt n s)).length_eq.symm

end Conflict

namespace Table

/-- The candidates for one cell among the requests of its state, in order. -/
def candidates (requests : List (Symbol × Action)) (s : Symbol) : List Action :=
  (requests.filter (·.1 = s)).map (·.2)

/-- What the candidates for one cell come to. -/
def cellOf (g : Grammar) (requests : List (Symbol × Action)) (number : Nat) (s : Symbol) : Cell :=
  (candidates requests s).foldl (Cell.receive g number s) .vacant

/-- The table shows this cell at the place of the state `n` and the symbol `X`. -/
structure Shows (t : Table) (n : Nat) (X : Symbol) (cell : Cell) : Prop where
  action : t.cell? n X = cell.action
  conflicts : t.conflicts.filter (Conflict.isAt n X) = cell.conflicts

variable {g : Grammar} {m : Automaton} {t : Table} {size n k : Nat} {X Y : Symbol} {cell : Cell}
  {candidate : Action}

/-! ## Places -/

/-- The array has a place for each of `size` states and each column. -/
def HasRows (t : Table) (size : Nat) : Prop := t.cells.size = t.width * size

theorem HasRows.place_lt (rows : t.HasRows size) (state : n < size) (column : X.index < t.width) :
    n * t.width + X.index < t.cells.size := by
  rw [HasRows] at rows
  calc n * t.width + X.index < (n + 1) * t.width := by rw [Nat.succ_mul]; omega
    _ ≤ size * t.width := Nat.mul_le_mul_right _ state
    _ = t.cells.size := by rw [rows, Nat.mul_comm]

theorem HasRows.size_le_place (rows : t.HasRows size) (outside : size ≤ n) :
    t.cells.size ≤ n * t.width + X.index := by
  rw [HasRows] at rows
  calc t.cells.size = size * t.width := by rw [rows, Nat.mul_comm]
    _ ≤ n * t.width := Nat.mul_le_mul_right _ outside
    _ ≤ n * t.width + X.index := Nat.le_add_right _ _

/-- Different places are different in the array. -/
theorem place_injective {width i j : Nat} (first : i < width) (second : j < width)
    (same : n * width + i = k * width + j) : n = k ∧ i = j := by
  have positive : 0 < width := by omega
  have quotient {q r : Nat} (small : r < width) : (q * width + r) / width = q := by
    rw [Nat.mul_comm, Nat.mul_add_div positive, Nat.div_eq_of_lt small, Nat.add_zero]
  have rows : n = k := by
    rw [← @quotient n i first, same, quotient second]
  subst rows
  omega

theorem HasRows.cell?_of_outside (rows : t.HasRows size)
    (outside : ¬ (n < size ∧ X.index < t.width)) : t.cell? n X = none := by
  unfold cell?
  split
  next column =>
    have beyond : size ≤ n := by omega
    rw [Array.getElem?_eq_none (rows.size_le_place beyond)]
    rfl
  next => rfl

/-- Inside of the grid there is a cell, vacant or not. -/
theorem HasRows.getElem?_place (rows : t.HasRows size) (state : n < size)
    (column : X.index < t.width) : t.cells[n * t.width + X.index]? = some (t.cell? n X) := by
  rw [cell?, if_pos column, Array.getElem?_eq_getElem (rows.place_lt state column)]
  rfl

/-! ## One action -/

/-- Writing to the place of `k` and `Y` is seen there, and nowhere else. -/
theorem HasRows.cell?_set (rows : t.HasRows size) (state : k < size) (column : Y.index < t.width)
    (value : Option Action) (conflicts : List Conflict) (n : Nat) (X : Symbol) :
    ({ t with
        cells := t.cells.setIfInBounds (k * t.width + Y.index) value, conflicts }).cell? n X =
      if k = n ∧ Y = X then value else t.cell? n X := by
  have inside := rows.place_lt state column
  unfold cell?
  dsimp only
  by_cases same : k = n ∧ Y = X
  · obtain ⟨rfl, rfl⟩ := same
    simp [column, inside]
  · rw [if_neg same]
    by_cases known : X.index < t.width
    · have apart : k * t.width + Y.index ≠ n * t.width + X.index := by
        intro equal
        obtain ⟨rfl, index⟩ := place_injective column known equal
        exact same ⟨rfl, congrArg Symbol.mk index⟩
      simp [known, apart]
    · simp [known]

theorem HasRows.assign (rows : t.HasRows size) (k : Nat) (Y : Symbol) (candidate : Action) :
    (t.assign g k Y candidate).HasRows size ∧ (t.assign g k Y candidate).width = t.width := by
  unfold Table.assign
  split
  · dsimp only
    split
    · exact ⟨rows, rfl⟩
    · exact ⟨by simpa [HasRows] using rows, rfl⟩
    · split
      · exact ⟨rows, rfl⟩
      · exact ⟨by simpa [HasRows] using rows, rfl⟩
  · exact ⟨rows, rfl⟩

/-- Nothing is written outside of the grid. -/
theorem HasRows.assign_of_outside (rows : t.HasRows size)
    (outside : ¬ (k < size ∧ Y.index < t.width)) : t.assign g k Y candidate = t := by
  unfold Table.assign
  split
  next column =>
    have beyond : size ≤ k := by omega
    dsimp only
    rw [Array.getElem?_eq_none (rows.size_le_place beyond)]
  next => rfl

/-- An action is received by the cell it is asked for. -/
theorem Shows.assign_self (shows : t.Shows n X cell) (rows : t.HasRows size) (state : n < size)
    (column : X.index < t.width) (candidate : Action) :
    (t.assign g n X candidate).Shows n X (cell.receive g n X candidate) := by
  unfold Table.assign Cell.receive
  rw [if_pos column]
  dsimp only
  rw [rows.getElem?_place state column, shows.action]
  cases cell.action with
  | none =>
    refine ⟨?_, shows.conflicts⟩
    rw [rows.cell?_set state column, if_pos ⟨rfl, rfl⟩]
  | some current =>
    dsimp only
    cases current.contest candidate with
    | none => exact shows
    | some settled =>
      refine ⟨?_, ?_⟩
      · exact (rows.cell?_set state column _ _ n X).trans (if_pos ⟨rfl, rfl⟩)
      · simp [shows.conflicts, Conflict.isAt]

/-- The other cells stay as they are. -/
theorem Shows.assign_other (shows : t.Shows n X cell) (rows : t.HasRows size)
    (other : ¬ (k = n ∧ Y = X)) (candidate : Action) :
    (t.assign g k Y candidate).Shows n X cell := by
  by_cases inside : k < size ∧ Y.index < t.width
  · obtain ⟨state, column⟩ := inside
    unfold Table.assign
    rw [if_pos column]
    dsimp only
    rw [rows.getElem?_place state column]
    split
    · exact shows
    · refine ⟨?_, shows.conflicts⟩
      rw [rows.cell?_set state column, if_neg other, shows.action]
    · split
      · exact shows
      · refine ⟨?_, ?_⟩
        · rw [rows.cell?_set state column, if_neg other, shows.action]
        · simp [shows.conflicts, Conflict.isAt, other]
  · rw [rows.assign_of_outside inside]
    exact shows

/-! ## All actions -/

/-- What is asked for one place, in order. -/
def askedAt (requests : List (Nat × Symbol × Action)) (n : Nat) (X : Symbol) : List Action :=
  requests.filterMap fun (k, s, candidate) => if k = n ∧ s = X then some candidate else none

theorem Shows.assignAll (shows : t.Shows n X cell) (rows : t.HasRows size) (state : n < size)
    (column : X.index < t.width) (requests : List (Nat × Symbol × Action)) :
    (t.assignAll g requests).Shows n X
      ((askedAt requests n X).foldl (Cell.receive g n X) cell) := by
  induction requests generalizing t cell with
  | nil => exact shows
  | cons request requests ih =>
    obtain ⟨k, Y, candidate⟩ := request
    obtain ⟨rows', width⟩ := rows.assign (g := g) k Y candidate
    rw [Table.assignAll, List.foldl_cons, ← Table.assignAll]
    by_cases same : k = n ∧ Y = X
    · obtain ⟨rfl, rfl⟩ := same
      have asked :
          askedAt ((k, Y, candidate) :: requests) k Y = candidate :: askedAt requests k Y := by
        simp [askedAt]
      rw [asked, List.foldl_cons]
      exact ih (shows.assign_self rows state column candidate) rows' (width ▸ column)
    · have asked : askedAt ((k, Y, candidate) :: requests) n X = askedAt requests n X := by
        simp [askedAt, same]
      rw [asked]
      exact ih (shows.assign_other rows same candidate) rows' (width ▸ column)

theorem Shows.assignAll_of_outside (shows : t.Shows n X cell) (rows : t.HasRows size)
    (outside : ¬ (n < size ∧ X.index < t.width)) (requests : List (Nat × Symbol × Action)) :
    (t.assignAll g requests).Shows n X cell := by
  induction requests generalizing t with
  | nil => exact shows
  | cons request requests ih =>
    obtain ⟨k, Y, candidate⟩ := request
    obtain ⟨rows', width⟩ := rows.assign (g := g) k Y candidate
    rw [Table.assignAll, List.foldl_cons, ← Table.assignAll]
    refine ih ?_ rows' (width ▸ outside)
    by_cases same : k = n ∧ Y = X
    · obtain ⟨rfl, rfl⟩ := same
      show (t.assign g k Y candidate).Shows k Y cell
      rw [rows.assign_of_outside outside]
      exact shows
    · exact shows.assign_other rows same candidate

theorem HasRows.assignAll (rows : t.HasRows size) (requests : List (Nat × Symbol × Action)) :
    (t.assignAll g requests).HasRows size ∧ (t.assignAll g requests).width = t.width := by
  induction requests generalizing t with
  | nil => exact ⟨rows, rfl⟩
  | cons request requests ih =>
    obtain ⟨rows', width⟩ := rows.assign (g := g) request.1 request.2.1 request.2.2
    obtain ⟨whole, same⟩ := ih rows'
    exact ⟨whole, same.trans width⟩

theorem askedAt_append (requests others : List (Nat × Symbol × Action)) (n : Nat) (X : Symbol) :
    askedAt (requests ++ others) n X = askedAt requests n X ++ askedAt others n X :=
  List.filterMap_append

theorem askedAt_map (requests : List (Symbol × Action)) (k n : Nat) (X : Symbol) :
    askedAt (requests.map (k, ·)) n X = if k = n then candidates requests X else [] := by
  induction requests with
  | nil => simp [askedAt, candidates]
  | cons request requests ih =>
    rw [List.map_cons, ← List.singleton_append, askedAt_append, ih]
    by_cases state : k = n <;> by_cases symbol : request.1 = X <;>
      simp [askedAt, candidates, state, symbol]

/-- What is asked for a place is asked for by its state. -/
theorem askedAt_zipIdx (asks : Nat → ItemSet → List (Symbol × Action)) (states : List ItemSet)
    (first n : Nat) (X : Symbol) :
    askedAt ((states.zipIdx first).flatMap fun (items, number) =>
        (asks number items).map (number, ·)) n X =
      if first ≤ n then (states[n - first]?.map fun items => candidates (asks n items) X).getD []
      else [] := by
  induction states generalizing first with
  | nil => simp [askedAt]
  | cons items states ih =>
    have split : askedAt (((items :: states).zipIdx first).flatMap fun (items, number) =>
        (asks number items).map (number, ·)) n X =
      (if first = n then candidates (asks n items) X else []) ++
        askedAt ((states.zipIdx (first + 1)).flatMap fun (items, number) =>
          (asks number items).map (number, ·)) n X := by
      rw [List.zipIdx_cons, List.flatMap_cons, askedAt_append]
      congr 1
      refine (askedAt_map (asks first items) first n X).trans ?_
      by_cases same : first = n
      · rw [same]
      · rw [if_neg same, if_neg same]
    rw [split, ih]
    rcases Nat.lt_trichotomy first n with before | rfl | behind
    · rw [if_neg (by omega), if_pos (by omega), if_pos (by omega), List.nil_append,
        show n - first = n - (first + 1) + 1 by omega, List.getElem?_cons_succ]
    · rw [if_pos rfl, if_neg (by omega), if_pos (Nat.le_refl first), Nat.sub_self]
      simp
    · rw [if_neg (by omega), if_neg (by omega), if_neg (by omega), List.nil_append]

theorem hasRows_blank (g : Grammar) (size : Nat) : (blank g size).HasRows size := by
  simp [HasRows, blank]

theorem shows_blank (g : Grammar) (size n : Nat) (X : Symbol) :
    (blank g size).Shows n X .vacant := by
  refine ⟨?_, rfl⟩
  unfold cell? blank
  dsimp only [Cell.vacant]
  split
  · rw [Array.getElem?_replicate]
    split <;> rfl
  · rfl

/-- The cell of a place: what the requests of its state come to, inside of the grid. -/
def cellAt (g : Grammar) (m : Automaton) (n : Nat) (X : Symbol) : Cell :=
  if X.index < numColumns g then
    ((m.state? n).map fun items => cellOf g (requests g m n items) n X).getD .vacant
  else .vacant

theorem shows_filled (g : Grammar) (m : Automaton) (n : Nat) (X : Symbol) :
    (filled g m).Shows n X (cellAt g m n X) := by
  have rows := hasRows_blank g m.size
  have shows := shows_blank g m.size n X
  by_cases inside : n < m.size ∧ X.index < numColumns g
  · have whole := shows.assignAll (g := g) rows inside.1 inside.2 (assignments g m)
    rw [assignments, askedAt_zipIdx, if_pos (Nat.zero_le n), Nat.sub_zero] at whole
    have listed := List.getElem?_eq_getElem (l := m.states) inside.1
    rw [listed] at whole
    rw [cellAt, if_pos inside.2, Automaton.state?, listed]
    exact whole
  · have vacant : cellAt g m n X = .vacant := by
      unfold cellAt
      split
      next column =>
        have beyond : m.states.length ≤ n := Nat.le_of_not_lt fun below => inside ⟨below, column⟩
        rw [Automaton.state?, List.getElem?_eq_none beyond]
        rfl
      next => rfl
    rw [vacant]
    exact shows.assignAll_of_outside rows inside _

/-- Every place of the table shows its cell: the action it holds, and its conflicts in the order in
which they arose. -/
theorem shows_ofAutomaton (g : Grammar) (m : Automaton) (n : Nat) (X : Symbol) :
    (ofAutomaton g m).Shows n X (cellAt g m n X) := by
  have shows := shows_filled g m n X
  refine ⟨shows.action, ?_⟩
  rw [← shows.conflicts]
  exact Conflict.filter_mergeSort _ n X

theorem conflicts_sorted (g : Grammar) (m : Automaton) :
    (ofAutomaton g m).conflicts.Pairwise fun c d => c.precedes d :=
  List.pairwise_mergeSort Conflict.precedes_trans Conflict.precedes_total _

theorem isContested_ofAutomaton (g : Grammar) (m : Automaton) :
    (ofAutomaton g m).isContested = (filled g m).isContested :=
  congrArg not (List.mergeSort_perm _ Conflict.precedes).isEmpty_eq

/-- A conflict of the table is one of the cell at its place. -/
theorem mem_conflicts_iff_cellAt {conflict : Conflict} :
    conflict ∈ (ofAutomaton g m).conflicts ↔
      conflict ∈ (cellAt g m conflict.state conflict.symbol).conflicts := by
  rw [← (shows_ofAutomaton g m conflict.state conflict.symbol).conflicts, List.mem_filter]
  simp [Conflict.isAt]

/-! ## Rows -/

theorem hasRows_ofAutomaton (g : Grammar) (m : Automaton) :
    (ofAutomaton g m).HasRows m.size ∧ (ofAutomaton g m).width = numColumns g :=
  (hasRows_blank g m.size).assignAll (assignments g m)

theorem terminals_assignAll (t : Table) (requests : List (Nat × Symbol × Action)) :
    (t.assignAll g requests).terminals = t.terminals := by
  induction requests generalizing t with
  | nil => rfl
  | cons request requests ih =>
    obtain ⟨k, Y, candidate⟩ := request
    refine (ih _).trans ?_
    show (t.assign g k Y candidate).terminals = t.terminals
    unfold assign
    split
    · dsimp only
      split
      · rfl
      · rfl
      · split <;> rfl
    · rfl

theorem HasRows.row_eq (rows : t.HasRows size) (state : n < size) :
    t.row n = (List.range t.width).map fun i => t.cell? n ⟨i⟩ := by
  have inside : n * t.width + t.width ≤ t.cells.size := by
    rw [rows, ← Nat.succ_mul, Nat.mul_comm]
    exact Nat.mul_le_mul_left _ state
  rw [row, if_pos inside]
  apply List.ext_getElem?
  intro i
  by_cases column : i < t.width
  · have cell := rows.getElem?_place (X := ⟨i⟩) state column
    simp [column, cell]
  · rw [List.getElem?_eq_none, List.getElem?_eq_none]
    · simpa using column
    · simp
      omega

theorem HasRows.row_of_outside (rows : t.HasRows size) (outside : size ≤ n)
    (positive : 0 < t.width) :
    t.row n = [] := by
  have beyond := rows.size_le_place (X := ⟨0⟩) outside
  rw [row, if_neg]
  simp only [Nat.add_zero] at beyond
  omega

/-- Setting columns one after the other fills those of the listed symbols. -/
theorem getElem?_foldl_set (listed : List Symbol) (columns : List (Option Symbol)) (i : Nat) :
    (listed.foldl (fun columns s => columns.set s.index (some s)) columns)[i]? =
      if (⟨i⟩ : Symbol) ∈ listed ∧ i < columns.length then some (some ⟨i⟩) else columns[i]? := by
  induction listed generalizing columns with
  | nil => simp
  | cons s listed ih =>
    simp only [List.foldl_cons, ih, List.length_set, List.mem_cons, List.getElem?_set]
    by_cases same : s.index = i
    · obtain rfl : s = ⟨i⟩ := congrArg Symbol.mk same
      by_cases inside : i < columns.length <;> simp [inside]
    · have other : (⟨i⟩ : Symbol) ≠ s := fun equal => same (by rw [← equal])
      simp [same, other]

theorem columns_eq (g : Grammar) : columns g =
    (List.range (numColumns g)).map fun i => if g.isTerminal ⟨i⟩ then some ⟨i⟩ else none := by
  apply List.ext_getElem?
  intro i
  have member : (⟨i⟩ : Symbol) ∈ g.terminals ↔ g.isTerminal ⟨i⟩ := by
    simp only [Grammar.terminals, Grammar.symbols, List.mem_filter, List.mem_map, List.mem_range,
      and_iff_right_iff_imp]
    exact fun terminal => ⟨i, Grammar.index_lt_of_isTerminal terminal, rfl⟩
  simp only [columns, getElem?_foldl_set, member, List.length_replicate]
  by_cases inside : i < numColumns g <;> by_cases terminal : g.isTerminal ⟨i⟩ <;>
    simp [inside, terminal]

/-- What a state expects are the terminals for which it has an action. -/
theorem expected_ofAutomaton (known : 0 < g.numSymbols) (m : Automaton) (n : Nat) :
    (ofAutomaton g m).expected n =
      g.terminals.filter fun s => ((ofAutomaton g m).cell? n s).isSome := by
  obtain ⟨rows, width⟩ := hasRows_ofAutomaton g m
  have columns : (ofAutomaton g m).terminals = columns g :=
    terminals_assignAll (blank g m.size) (assignments g m)
  have positive : 0 < (ofAutomaton g m).width := by rw [width]; exact Nat.le_max_right _ 1
  by_cases inside : n < m.size
  · have all : numColumns g = g.numSymbols := Nat.max_eq_left known
    rw [expected, rows.row_eq inside, columns, columns_eq, width, all, List.zip_map',
      Grammar.terminals, Grammar.symbols, List.filter_filter]
    induction List.range g.numSymbols with
    | nil => rfl
    | cons i indices ih =>
      rw [List.map_cons, List.map_cons, List.filter_cons, List.filter_cons, ← ih]
      cases g.isTerminal ⟨i⟩ <;> cases (ofAutomaton g m).cell? n ⟨i⟩ <;> simp
  · have beyond := Nat.le_of_not_lt inside
    rw [expected, rows.row_of_outside beyond positive]
    refine (List.filter_eq_nil_iff.mpr fun s _ => ?_).symm
    rw [rows.cell?_of_outside fun both => inside both.1]
    simp

end Table

end ShiftReduce
