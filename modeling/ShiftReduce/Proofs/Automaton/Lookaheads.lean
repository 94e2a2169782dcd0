import ShiftReduce.Proofs.Automaton.Collection
import ShiftReduce.Proofs.Automaton.Merging
import ShiftReduce.Proofs.Grammar.Followers
import ShiftReduce.Proofs.Grammar.Freshness
import ShiftReduce.Proofs.Table.Cells

/-!
# Lookaheads and FOLLOW sets

A lookahead comes from the symbols behind the dot of the item that called for it, or from the
lookahead of that item. FOLLOW sets take in both, so what is ahead of an item follows the left-hand
side of its production, whichever states the items are put into.
-/
namespace ShiftReduce

variable {g : Grammar} {a : Analysis} {γ : List Symbol} {item added : Item}

/-- The lookahead of the item is in the FOLLOW set of the left-hand side of its production. -/
def Item.Follows (item : Item) (g : Grammar) (a : Analysis) : Prop :=
  ∃ p set, item.production? g = some p ∧ a.follow? p.lhs = some set ∧ item.lookahead ∈ set

theorem Item.follows_iff : item.Follows g a ↔
    ∃ p, item.production? g = some p ∧ item.lookahead ∈ Begins.rowOf a.follow p.lhs := by
  simp only [Item.Follows, Begins.mem_rowOf, Analysis.follow?, exists_and_left]

/-- An item hands its lookahead on only where FOLLOW sets do. -/
theorem Item.Follows.expand (wf : g.WellFormed) (follows : item.Follows g g.analysis)
    (called : added ∈ item.expansions g g.analysis) : added.Follows g g.analysis := by
  rw [Item.follows_iff] at follows ⊢
  obtain ⟨p, found, ahead⟩ := follows
  obtain ⟨s, q, c, next, nonterminal, member, rfl, begins, rfl⟩ :=
    (Item.mem_expansions wf).mp called
  obtain ⟨_, α, found', rhs, -⟩ := Item.exists_split next
  cases found.symm.trans found'
  refine ⟨q, wf.production?_index member, ?_⟩
  obtain ⟨n, settles⟩ := Begins.settles_follow wf
  have known : q.lhs.index < g.analysis.follow.length := by
    rw [(Begins.analysis_followSized wf).length]
    exact Grammar.Named.index_lt ⟨_, wf.left q member⟩
  -- the last round of FOLLOW had nothing to add for this production
  apply Begins.mem_rowOf_of_idle settles.fixed (Grammar.mem_of_production? found) rhs nonterminal known
  rcases Begins.mem_beginnings_some.mp begins with first | ⟨vanishes, same⟩
  · exact Or.inl first
  · exact Or.inr ⟨vanishes, same ▸ ahead⟩

theorem Reached.follows (built : g.Built) (reached : Reached g g.analysis γ item) :
    item.Follows g g.analysis := by
  have wf := built.wellFormed
  induction reached with
  | start chosen =>
    obtain ⟨p, accept, start⟩ := built.accept_start (by simp [chosen])
    rw [Grammar.acceptProduction?, chosen] at accept
    exact Item.follows_iff.mpr ⟨p, accept, Begins.endOfInput_mem_follow wf start⟩
  | expand _ called ih => exact ih.expand wf called
  | advance _ _ _ ih => exact ih

namespace Automaton

variable {m : Automaton} {n : Nat} {items : ItemSet}

/-- Every item of a state is reached, in both automata of a grammar. -/
theorem exists_reached (wf : g.WellFormed) {lalr : Bool}
    (done : ofGrammar g g.analysis lalr = .ok m) (found : m.state? n = some items)
    (member : item ∈ items) : ∃ γ, Reached g g.analysis γ item := by
  cases chosen : g.accept with
  | none => simp [ofGrammar, chosen] at done
  | some accept =>
    have closed := Begins.analysis_closed wf
    have explored := canonical_spec wf closed chosen
    have collection := explored.isCollection wf chosen (explores_canonical wf closed chosen).2
    have each (s : Nat) (items : ItemSet)
        (found : (canonical g g.analysis accept).state? s = some items) (item : Item)
        (member : item ∈ items) : ∃ γ, Reached g g.analysis γ item := by
      obtain ⟨γ, path⟩ := collection.reachable s (List.getElem?_eq_some_iff.mp found).1
      exact ⟨γ, explored.reached path chosen found item member⟩
    rw [ofGrammar, chosen] at done
    cases done
    split at found
    · obtain ⟨s, others, -, found, member⟩ := (mem_merge found).mp member
      exact each s others found item member
    · exact each n items found item member

end Automaton

/-- Lookaheads: in the canonical and in the merged automaton of an augmented grammar, every item has
a terminal ahead that is in the FOLLOW set of the left-hand side of its production. So the table has
the reduction of a production only over such terminals. -/
theorem Grammar.Built.lookaheads_follow (built : g.Built) (set : g.accept.isSome) (lalr : Bool) :
    ∃ m, Automaton.ofGrammar g g.analysis lalr = .ok m ∧
      (∀ n items item, m.state? n = some items → item ∈ items →
        g.isTerminal item.lookahead ∧ ∃ p set, item.production? g = some p ∧
          g.analysis.follow? p.lhs = some set ∧ item.lookahead ∈ set) ∧
      ∀ n X i, (Table.ofAutomaton g m).cell? n X = some (.reduce i) →
        ∃ p set, g.production? i = some p ∧ g.analysis.follow? p.lhs = some set ∧ X ∈ set := by
  have wf := built.wellFormed
  obtain ⟨accept, chosen⟩ := Option.isSome_iff_exists.mp set
  obtain ⟨m, done, tracks, -⟩ := Automaton.ofGrammar_spec wf chosen lalr
  have follows (n : Nat) (items : ItemSet) (item : Item) (found : m.state? n = some items)
      (member : item ∈ items) : item.Follows g g.analysis := by
    obtain ⟨γ, reached⟩ := Automaton.exists_reached wf done found member
    exact reached.follows built
  refine ⟨m, done, fun n items item found member =>
    ⟨tracks.terminal n items item found member, follows n items item found member⟩, ?_⟩
  intro n X i held
  obtain ⟨items, found, requested⟩ := Table.requested_of_cell? held
  cases requested with
  | @reduce item p member completed inner =>
    obtain ⟨q, set, production, row, ahead⟩ := follows n items item found member
    obtain ⟨production', -⟩ := Item.completed?_eq_some_iff.mp completed
    cases production.symm.trans production'
    have member := Grammar.mem_of_production? production
    exact ⟨p, set, wf.production?_index member, row, ahead⟩

/-- The merged table of `S -> S S | a` reduces `S -> a` over `a`, so `a` follows `S`. -/
theorem Grammar.doubled_lookaheads_follow : doubled.augment.2.Built ∧
    doubled.augment.2.accept.isSome ∧ ∃ m,
      Automaton.ofGrammar doubled.augment.2 doubled.augment.2.analysis true = .ok m ∧
      (Table.ofAutomaton doubled.augment.2 m).cell? 2 ⟨2⟩ = some (.reduce 1) ∧
      ∃ set, doubled.augment.2.analysis.follow? ⟨1⟩ = some set ∧ ⟨2⟩ ∈ set := by
  have augmented : doubled.augment.2.accept.isSome := by decide +kernel
  obtain ⟨m, done, -, reductions⟩ := doubled_built.augment.lookaheads_follow augmented true
  have reduces : (Automaton.ofGrammar doubled.augment.2 doubled.augment.2.analysis
      true).toOption.any fun m =>
        (Table.ofAutomaton doubled.augment.2 m).cell? 2 ⟨2⟩ = some (.reduce 1) := by
    decide +kernel
  rw [done] at reduces
  have held : (Table.ofAutomaton doubled.augment.2 m).cell? 2 ⟨2⟩ = some (.reduce 1) :=
    of_decide_eq_true reduces
  obtain ⟨p, set, production, row, member⟩ := reductions 2 ⟨2⟩ 1 held
  have lhs : (doubled.augment.2.production? 1).map (·.lhs) = some ⟨1⟩ := by decide +kernel
  rw [production] at lhs
  exact ⟨doubled_built.augment, augmented, m, done, held, set, Option.some.inj lhs ▸ row, member⟩

end ShiftReduce
