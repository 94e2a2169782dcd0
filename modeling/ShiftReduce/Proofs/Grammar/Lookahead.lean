import ShiftReduce.Proofs.Grammar.Derivation
import ShiftReduce.Proofs.Grammar.FirstFollow

/-!
# Lookaheads of derivation trees

In front of any text, the first token of the trees of some symbols is among the terminals that the
symbols can begin with.
-/
namespace ShiftReduce

/-- The symbol of the first of some tokens. -/
def Grammar.ahead? (g : Grammar) (tokens : List Token) : Option Symbol :=
  tokens.head?.bind fun token => g.symbol? token.name

@[simp] theorem Grammar.ahead?_cons (g : Grammar) (token : Token) (rest : List Token) :
    g.ahead? (token :: rest) = g.symbol? token.name := rfl

namespace Begins

variable {b : Begins} {g : Grammar} {s c a : Symbol} {β : List Symbol}

theorem mem_beginnings_nil {trailing : Option Symbol} :
    c ∈ b.beginnings [] trailing ↔ trailing = some c := by
  simp [beginnings]

theorem mem_beginnings_cons {trailing : Option Symbol} :
    c ∈ b.beginnings (s :: β) trailing ↔
      c ∈ b.firstOf s ∨ b.isNullable s ∧ c ∈ b.beginnings β trailing := by
  rw [beginnings]
  split <;> simp_all

/-- Sequences begin with terminals, if FIRST sets have nothing else. -/
theorem terminal_of_beginnings (members : ∀ s c, c ∈ b.firstOf s → g.isTerminal c)
    {trailing : Option Symbol} (begins : c ∈ b.beginnings β trailing) :
    g.isTerminal c ∨ trailing = some c := by
  induction β with
  | nil => exact Or.inr (mem_beginnings_nil.mp begins)
  | cons s β ih =>
    rcases mem_beginnings_cons.mp begins with first | ⟨-, later⟩
    · exact Or.inl (members s c first)
    · exact ih later

/-- The trailing terminal counts only behind symbols that are all nullable. -/
theorem mem_beginnings_some :
    c ∈ b.beginnings β (some a) ↔ c ∈ b.beginnings β none ∨ b.allNullable β ∧ c = a := by
  induction β with
  | nil => simp [mem_beginnings_nil, allNullable, eq_comm]
  | cons s β ih =>
    have both : b.allNullable (s :: β) ↔ b.isNullable s ∧ b.allNullable β := by
      simp [allNullable]
    rw [mem_beginnings_cons, mem_beginnings_cons, ih, both]
    tauto

/-- What begins a right-hand side begins the left-hand side, but for what follows it. -/
theorem Closed.left (closed : b.Closed g) {p : Production} (member : p ∈ g.productions)
    (begins : c ∈ b.beginnings p.rhs (some a)) :
    c ∈ b.firstOf p.lhs ∨ b.isNullable p.lhs ∧ c = a := by
  rcases mem_beginnings_some.mp begins with first | ⟨all, same⟩
  · exact Or.inl (closed.first p member c first)
  · exact Or.inr ⟨closed.nullable p member all, same⟩

/-- The tokens of a tree of `s` begin as `s` can begin, if they are not empty. -/
def Foresees (b : Begins) (g : Grammar) (s : Symbol) (t : Tree) : Prop :=
  ∀ rest a, g.ahead? rest = some a → ∃ c, g.ahead? (t.leaves ++ rest) = some c ∧
    (c ∈ b.firstOf s ∨ b.isNullable s ∧ c = a)

theorem foresees_forest {ts : List Tree} (each : List.Forall₂ (b.Foresees g) β ts)
    {rest : List Token} (ahead : g.ahead? rest = some a) :
    ∃ c, g.ahead? (Tree.fringe ts ++ rest) = some c ∧ c ∈ b.beginnings β (some a) := by
  induction each with
  | nil => exact ⟨a, ahead, mem_beginnings_nil.mpr rfl⟩
  | cons first _ ih =>
    -- what the later trees begin with is ahead of the first one
    obtain ⟨d, later, begins⟩ := ih
    obtain ⟨c, now, here⟩ := first _ d later
    refine ⟨c, by rw [Tree.fringe_cons, List.append_assoc]; exact now, ?_⟩
    exact mem_beginnings_cons.mpr (here.imp_right fun ⟨nullable, same⟩ =>
      ⟨nullable, same ▸ begins⟩)

theorem Closed.foresees (closed : b.Closed g) (wf : g.WellFormed) {t : Tree}
    (d : g.Derivation s t) : b.Foresees g s t := by
  refine d.induct ?leaf ?node
  case leaf =>
    intro s token terminal named rest a _
    have known := (Grammar.Derivation.leaf terminal named).symbol? wf
    exact ⟨s, by simpa using known, Or.inl (closed.terminal s terminal)⟩
  case node =>
    intro p cs member _ each rest a ahead
    obtain ⟨c, now, begins⟩ := foresees_forest each ahead
    exact ⟨c, by rwa [Tree.leaves_node], closed.left member begins⟩

/-- The first token of some trees, with text behind them, is one their symbols can begin with. -/
theorem Closed.ahead (closed : b.Closed g) (wf : g.WellFormed) {ts : List Tree}
    (ds : List.Forall₂ g.Derivation β ts) {rest : List Token} (ahead : g.ahead? rest = some a) :
    ∃ c, g.ahead? (Tree.fringe ts ++ rest) = some c ∧ c ∈ b.beginnings β (some a) :=
  foresees_forest (ds.imp fun _ _ => closed.foresees wf) ahead

end Begins

end ShiftReduce
