import ShiftReduce.Proofs.Automaton.Merging
import ShiftReduce.Proofs.Grammar.Augmentation
import ShiftReduce.Proofs.Table.Cells

/-!
# Conflicts

The candidates for a cell come by rank: first an edge or accepting, then the reductions, those of
lower productions before the others. So the first one stays in the cell, and each of the others
leaves a record that it lost to it.
-/
namespace ShiftReduce

/-! ## Rank -/

/-- The first action is preferred to the second where both could go into a cell. -/
inductive Action.Outranks : Action → Action → Prop
  | shift {t p : Nat} : Outranks (.shift t) (.reduce p)
  | accept {p : Nat} : Outranks .accept (.reduce p)
  | lower {p q : Nat} (less : p < q) : Outranks (.reduce p) (.reduce q)

/-- The kind of the conflicts that an action wins. A goto has no rivals. -/
def Conflict.Kind.wonBy : Action → Conflict.Kind
  | .shift _ => .shiftReduce
  | .accept => .acceptReduce
  | _ => .reduceReduce

/-- The record of an action that lost the cell of a state and a symbol to another. -/
def Conflict.record (g : Grammar) (n : Nat) (s : Symbol) (chosen rejected : Action) : Conflict :=
  ⟨n, s, g.name s, .wonBy chosen, chosen, rejected⟩

namespace Action.Outranks

variable {c d : Action}

theorem contest (outranks : c.Outranks d) : c.contest d = some (.wonBy c, c, d) := by
  cases outranks with
  | shift => rfl
  | accept => rfl
  | lower less => simp [Action.contest, Conflict.Kind.wonBy, Nat.ne_of_lt less, less]

theorem ne (outranks : c.Outranks d) : c ≠ d := by
  rintro rfl
  cases outranks with
  | lower less => exact Nat.lt_irrefl _ less

/-- Only reductions are outranked, and among themselves by number. -/
theorem reduce (outranks : c.Outranks d) : ∃ q, d = .reduce q ∧ ∀ p, c = .reduce p → p < q := by
  cases outranks with
  | shift => exact ⟨_, rfl, by simp⟩
  | accept => exact ⟨_, rfl, by simp⟩
  | lower less => exact ⟨_, rfl, by rintro _ ⟨⟩; exact less⟩

end Action.Outranks

/-! ## One cell -/

namespace Cell

variable {g : Grammar} {n : Nat} {s : Symbol}

/-- Whoever comes to a cell behind a candidate that outranks it leaves a record, and nothing else. -/
theorem foldl_outranked {first : Action} {rest : List Action}
    (outranked : ∀ c ∈ rest, first.Outranks c) (known : List Conflict) :
    rest.foldl (receive g n s) ⟨some first, known⟩ =
      ⟨some first, known ++ rest.map (.record g n s first)⟩ := by
  induction rest generalizing known with
  | nil => simp
  | cons c rest ih =>
    obtain ⟨above, later⟩ := List.forall_mem_cons.mp outranked
    have received : receive g n s ⟨some first, known⟩ c =
        ⟨some first, known ++ [.record g n s first c]⟩ := by
      simp [receive, above.contest, Conflict.record]
    rw [List.foldl_cons, received, ih later, List.append_assoc]
    rfl

/-- A cell whose candidates come by rank: the first one has it, the others are recorded in order. -/
inductive Settled (g : Grammar) (n : Nat) (s : Symbol) : List Action → Cell → Prop
  | vacant : Settled g n s [] .vacant
  | taken {first : Action} {rest : List Action} (outranked : ∀ c ∈ rest, first.Outranks c)
      (ranked : rest.Pairwise Action.Outranks) :
      Settled g n s (first :: rest) ⟨some first, rest.map (.record g n s first)⟩

theorem settled_of_ranked {candidates : List Action} (ranked : candidates.Pairwise Action.Outranks) :
    Settled g n s candidates (candidates.foldl (receive g n s) vacant) := by
  cases candidates with
  | nil => exact .vacant
  | cons first rest =>
    obtain ⟨outranked, ranked⟩ := List.pairwise_cons.mp ranked
    have folded : (first :: rest).foldl (receive g n s) vacant = _ := foldl_outranked outranked []
    rw [folded]
    exact .taken outranked ranked

namespace Settled

variable {candidates : List Action} {cell : Cell} {act c : Action} {conflict : Conflict}
  (settled : Settled g n s candidates cell)

include settled

theorem action_eq_none_iff : cell.action = none ↔ candidates = [] := by
  cases settled <;> simp [Cell.vacant]

theorem exists_action (member : c ∈ candidates) : ∃ act, cell.action = some act := by
  refine Option.ne_none_iff_exists'.mp fun none => ?_
  rw [settled.action_eq_none_iff.mp none] at member
  cases member

/-- The cell has a candidate that outranks all others. -/
theorem outranks (held : cell.action = some act) :
    act ∈ candidates ∧ ∀ c ∈ candidates, c ≠ act → act.Outranks c := by
  cases settled with
  | vacant => cases held
  | taken outranked =>
    cases held
    exact ⟨List.mem_cons_self, fun c member other =>
      outranked c ((List.mem_cons.mp member).resolve_left other)⟩

/-- The records are those of the candidates that did not get the cell. -/
theorem mem_conflicts : conflict ∈ cell.conflicts ↔ ∃ act c, conflict = .record g n s act c ∧
    cell.action = some act ∧ c ∈ candidates ∧ c ≠ act := by
  cases settled with
  | vacant => simp [Cell.vacant]
  | @taken first rest outranked =>
    simp only [List.mem_map]
    constructor
    · rintro ⟨c, later, rfl⟩
      exact ⟨first, c, rfl, rfl, List.mem_cons_of_mem _ later, (outranked c later).ne.symm⟩
    · rintro ⟨_, c, rfl, ⟨⟩, member, other⟩
      exact ⟨c, (List.mem_cons.mp member).resolve_left other, rfl⟩

theorem conflicts_ranked : cell.conflicts.Pairwise fun c d => c.rejected.Outranks d.rejected := by
  cases settled with
  | vacant => exact .nil
  | taken _ ranked => exact List.pairwise_map.mpr ranked

end Settled

end Cell

/-! ## Candidates by rank -/

variable {g : Grammar} {a : Analysis} {m : Automaton} {n : Nat} {items : ItemSet} {X : Symbol}
  {act : Action}

/-- Items are listed by production first. -/
theorem Item.production_le {i j : Item} (less : compare i j = .lt) :
    i.place.production ≤ j.place.production := by
  have places : ((compare i.place.production j.place.production).then
      (compare i.place.dot j.place.dot)).isLE := Item.place_le less
  exact Nat.isLE_compare.mp (Ordering.isLE_then_iff_and.mp places).1

namespace Table

variable (wf : g.WellFormed) (tracks : m.Tracks g a) (dotted : m.Dotted g)

include wf dotted in
/-- A complete item has the whole right-hand side before its dot. -/
theorem place_of_completed (found : m.state? n = some items) {item : Item} {p : Production}
    (member : item ∈ items) (completed : item.completed? g = some p) :
    item.place = ⟨p.index, p.length⟩ := by
  obtain ⟨production, ends⟩ := Item.completed?_eq_some_iff.mp completed
  have dot := Nat.le_antisymm (dotted n items item p found member production) ends
  rw [wf.indexed _ p production, ← dot]

include wf dotted in
/-- Two reductions over one symbol are of different productions, the lower one first. -/
theorem reductions_ranked (found : m.state? n = some items) :
    (items.reductions g).Pairwise fun r q => r.1.lookahead = q.1.lookahead →
      Action.Outranks (.reduce r.2.index) (.reduce q.2.index) := by
  refine List.pairwise_filterMap.mpr (items.increasing.imp_of_mem ?_)
  rintro ⟨place, x⟩ ⟨place', x'⟩ inI inJ less _ reducesI _ reducesJ ahead
  obtain ⟨p, completed, rfl⟩ := Option.map_eq_some_iff.mp reducesI
  obtain ⟨q, completed', rfl⟩ := Option.map_eq_some_iff.mp reducesJ
  obtain rfl : place = _ := place_of_completed wf dotted found inI completed
  obtain rfl : place' = _ := place_of_completed wf dotted found inJ completed'
  obtain rfl : x = x' := ahead
  refine .lower (Nat.lt_of_le_of_ne (Item.production_le less) fun same => ?_)
  -- with one production the items are the same, and no item is listed before itself
  have same : p.index = q.index := same
  obtain ⟨production, -⟩ := Item.completed?_eq_some_iff.mp completed
  obtain ⟨production', -⟩ := Item.completed?_eq_some_iff.mp completed'
  have production' : g.production? q.index = some q := production'
  cases (same ▸ production').symm.trans production
  simp at less

include wf tracks dotted in
/-- What a state asks for its cells comes by rank. -/
theorem requests_ranked (found : m.state? n = some items) :
    (requests g m n items).Pairwise fun r q => r.1 = q.1 → r.2.Outranks q.2 := by
  have inner {X : Symbol} {t : Nat} (edge : (X, t) ∈ m.edgesOf n) : X ≠ .endOfInput :=
    (tracks.edge n X t (tracks.mem_edgesOf_iff.mp edge)).1
  refine List.pairwise_append.mpr
    ⟨List.pairwise_append.mpr ⟨?edges, ?accept, ?both⟩, ?reductions, ?last⟩
  case edges =>
    refine List.pairwise_map.mpr ((List.pairwise_map.mp (tracks.distinct n)).imp ?_)
    exact fun other same => absurd same other
  case accept => split <;> simp
  case both =>
    rintro _ shifts _ accepts same
    obtain ⟨⟨Y, t⟩, edge, rfl⟩ := List.mem_map.mp shifts
    split at accepts
    next =>
      cases List.mem_singleton.mp accepts
      exact absurd same (inner edge)
    next => cases accepts
  case reductions =>
    exact List.pairwise_map.mpr ((reductions_ranked wf dotted found).filter _)
  case last =>
    rintro _ first _ reduces same
    obtain ⟨⟨item, p⟩, reduction, rfl⟩ := List.mem_map.mp reduces
    obtain ⟨member, completed⟩ := mem_reductions.mp (List.mem_filter.mp reduction).1
    rcases List.mem_append.mp first with shifts | accepts
    · obtain ⟨⟨Y, t⟩, edge, rfl⟩ := List.mem_map.mp shifts
      obtain rfl : Y = item.lookahead := same
      dsimp only
      rw [if_pos (tracks.terminal n items item found member)]
      exact .shift
    · split at accepts
      next =>
        cases List.mem_singleton.mp accepts
        exact .accept
      next => cases accepts

include wf tracks dotted in
theorem candidates_ranked (found : m.state? n = some items) (X : Symbol) :
    (candidates (requests g m n items) X).Pairwise Action.Outranks := by
  refine List.pairwise_map.mpr (((requests_ranked wf tracks dotted found).filter _).imp_of_mem ?_)
  intro r q inR inQ ranked
  have first : r.1 = X := of_decide_eq_true (List.mem_filter.mp inR).2
  have second : q.1 = X := of_decide_eq_true (List.mem_filter.mp inQ).2
  exact ranked (first.trans second.symm)

/-! ## What competes for a cell -/

/-- An action that a state of the automaton allows for over a symbol. -/
inductive Candidate (g : Grammar) (m : Automaton) (n : Nat) : Symbol → Action → Prop
  | shift {X : Symbol} {t : Nat} (edge : m.target? n X = some t) (terminal : g.isTerminal X) :
      Candidate g m n X (.shift t)
  | goto {X : Symbol} {t : Nat} (edge : m.target? n X = some t) (nonterminal : g.isNonterminal X) :
      Candidate g m n X (.goto t)
  | accept {items : ItemSet} {item : Item} (found : m.state? n = some items) (member : item ∈ items)
      (accepting : item.isAccepting g) : Candidate g m n .endOfInput .accept
  | reduce {items : ItemSet} {item : Item} {p : Production} (found : m.state? n = some items)
      (member : item ∈ items) (production : g.production? item.place.production = some p)
      (complete : p.length ≤ item.place.dot) (inner : g.accept ≠ some p.index) :
      Candidate g m n item.lookahead (.reduce p.index)

/-- The records of a table are those of its contested cells, by state and symbol, and a cell has the
candidate that wins against all others. -/
structure Exact (t : Table) (g : Grammar) (m : Automaton) : Prop where
  vacant : ∀ n X, t.cell? n X = none ↔ ∀ c, ¬ Candidate g m n X c
  held : ∀ n X act, t.cell? n X = some act → Candidate g m n X act ∧
    ∀ c, Candidate g m n X c → c ≠ act → act.Outranks c
  /-- An edge or accepting gets the cell. -/
  granted : ∀ n X act, Candidate g m n X act → (∀ p, act ≠ .reduce p) → t.cell? n X = some act
  /-- Among reductions only, the one of the lowest production does. -/
  lowest : ∀ n X p, Candidate g m n X (.reduce p) →
    (∀ c, Candidate g m n X c → ∃ q, c = .reduce q ∧ p ≤ q) → t.cell? n X = some (.reduce p)
  /-- The records are those of the other candidates, against the one that has the cell. -/
  recorded : ∀ conflict, conflict ∈ t.conflicts ↔ ∃ n X act c, conflict = .record g n X act c ∧
    t.cell? n X = some act ∧ Candidate g m n X c ∧ c ≠ act
  /-- There is only one for each of them. -/
  once : (t.conflicts.map fun c => (c.state, c.symbol, c.rejected)).Nodup
  sorted : t.conflicts.Pairwise fun c d =>
    c.state < d.state ∨ c.state = d.state ∧ c.symbol.index ≤ d.symbol.index
  quiet : t.isContested = false ↔ ∀ n X c d, Candidate g m n X c → Candidate g m n X d → c = d

include wf tracks in
theorem candidate_iff : Candidate g m n X act ↔
    ∃ items, m.state? n = some items ∧ Requested g m n items X act := by
  constructor
  · rintro (⟨edge, terminal⟩ | ⟨edge, nonterminal⟩ | ⟨found, member, accepting⟩ |
      ⟨found, member, production, complete, inner⟩)
    · obtain ⟨-, items, found, -⟩ := tracks.edge n X _ edge
      exact ⟨items, found, .shift (tracks.mem_edgesOf_iff.mpr edge) terminal⟩
    · obtain ⟨-, items, found, -⟩ := tracks.edge n X _ edge
      exact ⟨items, found,
        .goto (tracks.mem_edgesOf_iff.mpr edge) (Grammar.not_isTerminal_of_isNonterminal nonterminal)⟩
    · exact ⟨_, found, .accept (List.any_eq_true.mpr ⟨_, member, accepting⟩)⟩
    · exact ⟨_, found,
        .reduce member (Item.completed?_eq_some_iff.mpr ⟨production, complete⟩) inner⟩
  · rintro ⟨items, found, ⟨edge, terminal⟩ | ⟨edge, other⟩ | accepting | ⟨member, completed, inner⟩⟩
    · exact .shift (tracks.mem_edgesOf_iff.mp edge) terminal
    · have edge := tracks.mem_edgesOf_iff.mp edge
      obtain ⟨name, named⟩ := tracks.named wf edge
      exact .goto edge ((Grammar.isTerminal_or_isNonterminal named).resolve_left other)
    · obtain ⟨item, member, accepting⟩ := List.any_eq_true.mp accepting
      exact .accept found member accepting
    · obtain ⟨production, complete⟩ := Item.completed?_eq_some_iff.mp completed
      exact .reduce found member production complete inner

/-! ## The whole table -/

include wf tracks dotted

/-- Each cell of a table was settled among the candidates for it. -/
theorem exists_settled (n : Nat) (X : Symbol) : ∃ candidates,
    Cell.Settled g n X candidates (cellAt g m n X) ∧ ∀ c, c ∈ candidates ↔ Candidate g m n X c := by
  by_cases inside : (∃ items, m.state? n = some items) ∧ X.index < g.numSymbols
  · obtain ⟨⟨items, found⟩, known⟩ := inside
    refine ⟨candidates (requests g m n items) X, ?_, fun c => ?_⟩
    · rw [cellAt_eq found known]
      exact Cell.settled_of_ranked (candidates_ranked wf tracks dotted found X)
    · rw [mem_candidates, mem_requests, candidate_iff wf tracks]
      constructor
      · exact fun requested => ⟨items, found, requested⟩
      · rintro ⟨_, found', requested⟩
        cases found.symm.trans found'
        exact requested
  · -- no state asks for such a place
    have none (c : Action) : ¬ Candidate g m n X c := fun candidate => by
      obtain ⟨items, found, requested⟩ := (candidate_iff wf tracks).mp candidate
      exact inside ⟨⟨items, found⟩, requested.known wf tracks found⟩
    have vacant : cellAt g m n X = .vacant := by
      rcases cellAt_cases g m n X with vacant | ⟨items, found, asked⟩
      · exact vacant
      · have unasked : candidates (requests g m n items) X = [] :=
          List.eq_nil_iff_forall_not_mem.mpr fun c member =>
            none c ((candidate_iff wf tracks).mpr
              ⟨items, found, mem_requests.mp (mem_candidates.mp member)⟩)
        rw [asked, cellOf, unasked]
        rfl
    exact ⟨[], vacant ▸ .vacant, fun c => by simp [none]⟩

/-- Conflicts are listed by state, symbol and rank. -/
theorem conflicts_listed : (ofAutomaton g m).conflicts.Pairwise fun c d => c.state < d.state ∨
    c.state = d.state ∧ (c.symbol.index < d.symbol.index ∨
      c.symbol = d.symbol ∧ c.rejected.Outranks d.rejected) := by
  refine List.pairwise_iff_forall_sublist.mpr fun {c d} both => ?_
  have ordered : c.precedes d := List.pairwise_iff_forall_sublist.mp (conflicts_sorted g m) both
  rw [Conflict.precedes_iff] at ordered
  rcases ordered with before | ⟨state, column⟩
  · exact Or.inl before
  rcases Nat.lt_or_eq_of_le column with before | column
  · exact Or.inr ⟨state, Or.inl before⟩
  -- two conflicts of one cell are in the order of the cell
  have symbol : c.symbol = d.symbol := congrArg Symbol.mk column
  have place := both.filter (Conflict.isAt d.state d.symbol)
  rw [(shows_ofAutomaton g m d.state d.symbol).conflicts] at place
  simp only [List.filter_cons, Conflict.isAt, state, symbol, decide_true, Bool.and_self, if_true,
    List.filter_nil] at place
  obtain ⟨candidates, settled, -⟩ := exists_settled wf tracks dotted d.state d.symbol
  have ranked := List.pairwise_iff_forall_sublist.mp settled.conflicts_ranked place
  exact Or.inr ⟨state, Or.inr ⟨symbol, ranked⟩⟩

theorem candidate_of_cell? (held : (ofAutomaton g m).cell? n X = some act) :
    Candidate g m n X act ∧ ∀ c, Candidate g m n X c → c ≠ act → act.Outranks c := by
  obtain ⟨candidates, settled, members⟩ := exists_settled wf tracks dotted n X
  rw [(shows_ofAutomaton g m n X).action] at held
  obtain ⟨member, first⟩ := settled.outranks held
  exact ⟨(members act).mp member, fun c candidate => first c ((members c).mpr candidate)⟩

theorem exists_cell?_of_candidate (candidate : Candidate g m n X act) :
    ∃ chosen, (ofAutomaton g m).cell? n X = some chosen := by
  obtain ⟨candidates, settled, members⟩ := exists_settled wf tracks dotted n X
  rw [(shows_ofAutomaton g m n X).action]
  exact settled.exists_action ((members act).mpr candidate)

/-- The records are those of the candidates that did not get a cell. -/
theorem mem_conflicts_iff {conflict : Conflict} : conflict ∈ (ofAutomaton g m).conflicts ↔
    ∃ n X act c, conflict = .record g n X act c ∧ (ofAutomaton g m).cell? n X = some act ∧
      Candidate g m n X c ∧ c ≠ act := by
  rw [mem_conflicts_iff_cellAt]
  constructor
  · intro recorded
    obtain ⟨candidates, settled, members⟩ :=
      exists_settled wf tracks dotted conflict.state conflict.symbol
    obtain ⟨act, c, record, held, member, other⟩ := settled.mem_conflicts.mp recorded
    rw [← (shows_ofAutomaton g m _ _).action] at held
    exact ⟨_, _, act, c, record, held, (members c).mp member, other⟩
  · rintro ⟨n, X, act, c, rfl, held, candidate, other⟩
    obtain ⟨candidates, settled, members⟩ := exists_settled wf tracks dotted n X
    rw [(shows_ofAutomaton g m n X).action] at held
    exact settled.mem_conflicts.mpr ⟨act, c, rfl, held, (members c).mpr candidate, other⟩

theorem exact_ofAutomaton : (ofAutomaton g m).Exact g m := by
  have listed := conflicts_listed wf tracks dotted
  refine ⟨?vacant, fun n X act => candidate_of_cell? wf tracks dotted, ?granted, ?lowest,
    fun conflict => mem_conflicts_iff wf tracks dotted, ?once, ?sorted, ?quiet⟩
  case vacant =>
    intro n X
    constructor
    · intro none c candidate
      obtain ⟨act, held⟩ := exists_cell?_of_candidate wf tracks dotted candidate
      cases none.symm.trans held
    · exact fun none => Option.eq_none_iff_forall_ne_some.mpr fun act held =>
        none act (candidate_of_cell? wf tracks dotted held).1
  case granted =>
    intro n X c candidate inner
    obtain ⟨act, held⟩ := exists_cell?_of_candidate wf tracks dotted candidate
    obtain ⟨-, first⟩ := candidate_of_cell? wf tracks dotted held
    by_cases same : c = act
    · exact same ▸ held
    · obtain ⟨q, rfl, -⟩ := (first c candidate same).reduce
      exact absurd rfl (inner q)
  case lowest =>
    intro n X p candidate below
    obtain ⟨act, held⟩ := exists_cell?_of_candidate wf tracks dotted candidate
    obtain ⟨own, first⟩ := candidate_of_cell? wf tracks dotted held
    obtain ⟨q, rfl, le⟩ := below act own
    by_cases same : Action.reduce p = .reduce q
    · exact same ▸ held
    · obtain ⟨_, ⟨⟩, less⟩ := (first _ candidate same).reduce
      exact absurd (less q rfl) (Nat.not_lt.mpr le)
  case once =>
    refine List.pairwise_map.mpr (listed.imp fun {c d} before same => ?_)
    simp only [Prod.mk.injEq] at same
    obtain ⟨state, symbol, rejected⟩ := same
    rcases before with less | ⟨-, less | ⟨-, ranked⟩⟩
    · exact Nat.ne_of_lt less state
    · exact Nat.ne_of_lt less (congrArg _ symbol)
    · exact ranked.ne rejected
  case sorted =>
    refine listed.imp fun {c d} before => before.imp_right (And.imp_right ?_)
    rintro (less | ⟨same, -⟩)
    · exact Nat.le_of_lt less
    · exact Nat.le_of_eq (congrArg _ same)
  case quiet =>
    rw [isContested, Bool.not_eq_false', List.isEmpty_iff]
    constructor
    · intro none n X c d first second
      obtain ⟨act, held⟩ := exists_cell?_of_candidate wf tracks dotted first
      -- a candidate that did not get the cell would be on record
      have own (c : Action) (candidate : Candidate g m n X c) : c = act := by
        by_contra other
        have recorded := (mem_conflicts_iff wf tracks dotted).mpr
          ⟨n, X, act, c, rfl, held, candidate, other⟩
        rw [none] at recorded
        cases recorded
      exact (own c first).trans (own d second).symm
    · refine fun same => List.eq_nil_iff_forall_not_mem.mpr fun conflict listed => ?_
      obtain ⟨n, X, act, c, -, held, candidate, other⟩ := (mem_conflicts_iff wf tracks dotted).mp listed
      exact other (same n X c act candidate (candidate_of_cell? wf tracks dotted held).1)

end Table

/-- Conflicts: the table of either automaton of an augmented grammar is exact. A cell is vacant if it
has no candidates. Otherwise it has the edge or accepting if that is a candidate, and the reduction
of the lowest production if not. Every other candidate is on record once, against the one that has
the cell, and nothing else is. -/
theorem Grammar.Built.table_exact (built : g.Built) (set : g.accept.isSome) (lalr : Bool) :
    ∃ m, Automaton.ofGrammar g g.analysis lalr = .ok m ∧ (Table.ofAutomaton g m).Exact g m := by
  have wf := built.wellFormed
  obtain ⟨accept, chosen⟩ := Option.isSome_iff_exists.mp set
  obtain ⟨m, done, tracks, dotted⟩ := Automaton.ofGrammar_spec wf chosen lalr
  exact ⟨m, done, Table.exact_ofAutomaton wf tracks dotted⟩

/-- With `S -> S S` a shift of `a` is preferred to a reduction, so that the reduction is on record. -/
theorem Grammar.doubled_table_exact : ∃ m,
    Automaton.ofGrammar doubled.augment.2 doubled.augment.2.analysis true = .ok m ∧
    (Table.ofAutomaton doubled.augment.2 m).Exact doubled.augment.2 m ∧
    (Table.ofAutomaton doubled.augment.2 m).isContested := by
  obtain ⟨m, done, exact⟩ := doubled_built.augment.table_exact (by decide +kernel) true
  have contested : (Automaton.ofGrammar doubled.augment.2 doubled.augment.2.analysis
      true).toOption.any fun m => (Table.ofAutomaton doubled.augment.2 m).isContested := by
    decide +kernel
  rw [done] at contested
  exact ⟨m, done, exact, contested⟩

end ShiftReduce
