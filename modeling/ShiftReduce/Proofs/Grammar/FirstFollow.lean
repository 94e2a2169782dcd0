import Mathlib.Data.Fintype.Card
import Mathlib.Data.Fintype.Option
import Mathlib.Data.Fintype.Prod
import ShiftReduce.Grammar.FirstFollow
import ShiftReduce.Proofs.Grammar.WellFormed
import ShiftReduce.Proofs.Settling

/-!
# Nullable symbols and FIRST sets are closed

A pass only adds facts, and each pass but the last adds one. There are no more facts than the budget
allows passes, so the analysis ends with a pass that changes nothing: every production has passed
on all it can.
-/
namespace ShiftReduce.Begins

variable {b c d : Begins} {s t x : Symbol}

/-- Everything established in `b` is established in `c`. -/
structure Below (b c : Begins) : Prop where
  nullableLength : b.nullable.length = c.nullable.length
  firstLength : b.first.length = c.first.length
  isNullable : ∀ s, b.isNullable s → c.isNullable s
  firstOf : ∀ s x, x ∈ b.firstOf s → x ∈ c.firstOf s

theorem Below.refl (b : Begins) : b.Below b := ⟨rfl, rfl, fun _ => id, fun _ _ => id⟩

theorem Below.trans (first : b.Below c) (second : c.Below d) : b.Below d where
  nullableLength := first.nullableLength.trans second.nullableLength
  firstLength := first.firstLength.trans second.firstLength
  isNullable s known := second.isNullable s (first.isNullable s known)
  firstOf s x known := second.firstOf s x (first.firstOf s x known)

theorem Below.antisymm (first : b.Below c) (second : c.Below b) : b = c := by
  have nullable : b.nullable = c.nullable := by
    refine List.ext_getElem first.nullableLength fun i inB inC => Bool.eq_iff_iff.mpr ?_
    have forth := first.isNullable ⟨i⟩
    have back := second.isNullable ⟨i⟩
    simp only [Begins.isNullable, List.getElem?_eq_getElem inB, List.getElem?_eq_getElem inC,
      Option.getD_some] at forth back
    exact ⟨forth, back⟩
  have firsts : b.first = c.first := by
    apply List.ext_getElem first.firstLength
    intro i inB inC
    apply OrderedSet.ext
    intro x
    have forth := first.firstOf ⟨i⟩ x
    have back := second.firstOf ⟨i⟩ x
    simp only [Begins.firstOf, first?, List.getElem?_eq_getElem inB,
      List.getElem?_eq_getElem inC, Option.getD_some] at forth back
    exact ⟨forth, back⟩
  cases b
  cases c
  simp_all

/-! ## What one production adds -/

/-- The first sets with those of `s` let into the one of `lhs`. -/
def gain (b : Begins) (lhs s : Symbol) : Begins :=
  { b with first := b.first.modify lhs.index (· ∪ b.firstOf s) }

theorem mem_firstOf_gain {lhs : Symbol} : x ∈ (b.gain lhs s).firstOf t ↔
    x ∈ b.firstOf t ∨ lhs.index = t.index ∧ t.index < b.first.length ∧ x ∈ b.firstOf s := by
  simp only [gain, firstOf, first?, List.getElem?_modify]
  by_cases bound : t.index < b.first.length
  · rw [List.getElem?_eq_getElem bound]
    split <;> simp_all
  · simp [bound]

theorem below_gain (b : Begins) (lhs s : Symbol) : b.Below (b.gain lhs s) where
  nullableLength := rfl
  firstLength := by simp [gain]
  isNullable _ := id
  firstOf _ _ known := mem_firstOf_gain.mpr (Or.inl known)

/-- One symbol of a right-hand side, absorbed. -/
def absorbOne (lhs s : Symbol) (b : Begins) : Begins := if s = lhs then b else b.gain lhs s

theorem absorb_cons (lhs s : Symbol) (rest : List Symbol) (b : Begins) :
    absorb lhs (s :: rest) b =
      if (absorbOne lhs s b).isNullable s then absorb lhs rest (absorbOne lhs s b)
      else absorbOne lhs s b := rfl

theorem below_absorbOne (lhs s : Symbol) (b : Begins) : b.Below (absorbOne lhs s b) := by
  unfold absorbOne
  split
  · exact .refl b
  · exact below_gain b lhs s

theorem below_absorb (lhs : Symbol) (rhs : List Symbol) (b : Begins) :
    b.Below (absorb lhs rhs b) := by
  induction rhs generalizing b with
  | nil => exact .refl b
  | cons s rest ih =>
    rw [absorb_cons]
    split
    · exact (below_absorbOne lhs s b).trans (ih _)
    · exact below_absorbOne lhs s b

/-- The left-hand side marked as nullable if the whole right-hand side is. -/
def mark (b : Begins) (p : Production) : Begins :=
  if b.allNullable p.rhs then { b with nullable := b.nullable.set p.lhs.index true } else b

theorem relax_eq (b : Begins) (p : Production) : b.relax p = (b.mark p).absorb p.lhs p.rhs := rfl

theorem isNullable_set : { b with nullable := b.nullable.set t.index true }.isNullable s ↔
    b.isNullable s ∨ t.index = s.index ∧ s.index < b.nullable.length := by
  simp only [isNullable, List.getElem?_set]
  split
  · split <;> simp_all
  · simp_all

theorem below_mark (b : Begins) (p : Production) : b.Below (b.mark p) := by
  unfold mark
  split
  · exact ⟨by simp, rfl, fun _ known => isNullable_set.mpr (Or.inl known), fun _ _ => id⟩
  · exact .refl b

theorem below_relax (b : Begins) (p : Production) : b.Below (b.relax p) :=
  (below_mark b p).trans (below_absorb p.lhs p.rhs (b.mark p))

theorem below_pass (ps : List Production) (b : Begins) : b.Below (b.pass ps) := by
  induction ps generalizing b with
  | nil => exact .refl b
  | cons p ps ih => exact (below_relax b p).trans (ih (b.relax p))

/-! ## Idle passes -/

/-- Facts are only added, so where a pass adds none, no production of it does. -/
theorem relax_of_pass {ps : List Production} (idle : b.pass ps = b) {p : Production}
    (member : p ∈ ps) : b.relax p = b :=
  idle_of_foldl Below.refl Below.trans Below.antisymm below_relax idle member

theorem absorbOne_of_absorb {lhs : Symbol} {rest : List Symbol}
    (idle : absorb lhs (s :: rest) b = b) : absorbOne lhs s b = b := by
  refine Below.antisymm ?_ (below_absorbOne lhs s b)
  rw [absorb_cons] at idle
  split at idle
  · have below := below_absorb lhs rest (absorbOne lhs s b)
    rwa [idle] at below
  · rw [idle]
    exact .refl b

theorem firstOf_of_absorbOne {lhs : Symbol} (idle : absorbOne lhs s b = b)
    (known : lhs.index < b.first.length) (member : x ∈ b.firstOf s) : x ∈ b.firstOf lhs := by
  unfold absorbOne at idle
  split at idle
  next same => exact same ▸ member
  · rw [← idle]
    exact mem_firstOf_gain.mpr (Or.inr ⟨rfl, known, member⟩)

theorem firstOf_of_absorb {lhs : Symbol} {rhs : List Symbol} (idle : absorb lhs rhs b = b)
    (known : lhs.index < b.first.length) (member : x ∈ b.beginnings rhs none) :
    x ∈ b.firstOf lhs := by
  induction rhs with
  | nil => simp [beginnings] at member
  | cons s rest ih =>
    have here := absorbOne_of_absorb idle
    rw [beginnings] at member
    split at member
    next nullable =>
      rcases OrderedSet.mem_union.mp member with first | later
      · exact firstOf_of_absorbOne here known first
      -- behind a nullable symbol the rest is absorbed too
      · rw [absorb_cons, here, if_pos nullable] at idle
        exact ih idle later
    next => exact firstOf_of_absorbOne here known member

/-! ## Closed sets of facts -/

/-- Everything that the productions of a grammar ask for. -/
structure Closed (b : Begins) (g : Grammar) : Prop where
  terminal : ∀ c, g.isTerminal c → c ∈ b.firstOf c
  members : ∀ s c, c ∈ b.firstOf s → g.isTerminal c
  nullable : ∀ p ∈ g.productions, b.allNullable p.rhs → b.isNullable p.lhs
  first : ∀ p ∈ g.productions, ∀ c ∈ b.beginnings p.rhs none, c ∈ b.firstOf p.lhs

/-- A row for every symbol, and nothing but terminals in it. -/
structure Sized (b : Begins) (g : Grammar) : Prop where
  nullableLength : b.nullable.length = g.numSymbols
  firstLength : b.first.length = g.numSymbols
  members : ∀ s c, c ∈ b.firstOf s → g.isTerminal c

variable {g : Grammar}

theorem Sized.absorb (sized : b.Sized g) (lhs : Symbol) (rhs : List Symbol) :
    (absorb lhs rhs b).Sized g := by
  induction rhs generalizing b with
  | nil => exact sized
  | cons s rest ih =>
    have one : (absorbOne lhs s b).Sized g := by
      refine ⟨?_, ?_, fun t c member => ?_⟩
      · rw [← (below_absorbOne lhs s b).nullableLength, sized.nullableLength]
      · rw [← (below_absorbOne lhs s b).firstLength, sized.firstLength]
      · unfold absorbOne at member
        split at member
        · exact sized.members t c member
        · rcases mem_firstOf_gain.mp member with old | ⟨-, -, new⟩
          · exact sized.members t c old
          · exact sized.members s c new
    rw [absorb_cons]
    split
    · exact ih one
    · exact one

theorem Sized.relax (sized : b.Sized g) (p : Production) : (b.relax p).Sized g := by
  have marked : (b.mark p).Sized g := by
    refine ⟨?_, ?_, fun t c member => sized.members t c ?_⟩
    · rw [← (below_mark b p).nullableLength, sized.nullableLength]
    · rw [← (below_mark b p).firstLength, sized.firstLength]
    · unfold mark at member
      split at member <;> exact member
  exact marked.absorb p.lhs p.rhs

theorem Sized.pass (sized : b.Sized g) (ps : List Production) : (b.pass ps).Sized g := by
  induction ps generalizing b with
  | nil => exact sized
  | cons p ps ih => exact ih (sized.relax p)

/-! ## Counting facts -/

/-- A fact, by the numbers of its symbols: that one is nullable, or begins with another. -/
def holds (b : Begins) {n : Nat} : Fin n × Option (Fin n) → Bool
  | (s, none) => b.isNullable ⟨s⟩
  | (s, some c) => (b.firstOf ⟨s⟩).contains ⟨c⟩

def facts (b : Begins) (n : Nat) : Finset (Fin n × Option (Fin n)) :=
  Finset.univ.filter fun fact => b.holds fact

theorem card_facts_le (b : Begins) (n : Nat) : (b.facts n).card ≤ n * (n + 1) := by
  have bound := (b.facts n).card_le_univ
  simpa using bound

/-- Over the symbols of a grammar, facts tell everything. -/
theorem eq_of_facts_subset (below : b.Below c) (sized : c.Sized g)
    (subset : c.facts g.numSymbols ⊆ b.facts g.numSymbols) : b = c := by
  -- both say the same about symbols of the grammar, and nothing is said about others
  have back (fact : Fin g.numSymbols × Option (Fin g.numSymbols)) (held : c.holds fact) :
      b.holds fact := by
    have member : fact ∈ b.facts g.numSymbols := subset (by simpa [facts] using held)
    simpa [facts] using member
  refine below.antisymm ⟨below.nullableLength.symm, below.firstLength.symm, fun s known => ?_,
    fun s x known => ?_⟩
  · have bound : s.index < g.numSymbols := by
      rw [← sized.nullableLength]
      by_contra outside
      rw [isNullable, List.getElem?_eq_none (by omega)] at known
      cases known
    exact back (⟨s.index, bound⟩, none) known
  · have bound : s.index < g.numSymbols := by
      rw [← sized.firstLength]
      by_contra outside
      rw [firstOf, first?, List.getElem?_eq_none (by omega)] at known
      exact OrderedSet.not_mem_empty x known
    have terminal := Grammar.index_lt_of_isTerminal (sized.members s x known)
    have held := back (⟨s.index, bound⟩, some ⟨x.index, terminal⟩) (by simpa [holds] using known)
    simpa [holds] using held

theorem card_facts_lt (below : b.Below c) (sized : c.Sized g) (ne : b ≠ c) :
    (b.facts g.numSymbols).card < (c.facts g.numSymbols).card := by
  refine Finset.card_lt_card ⟨fun fact member => ?_, fun subset =>
    ne (eq_of_facts_subset below sized subset)⟩
  have held : b.holds fact := by simpa [facts] using member
  have later : c.holds fact := by
    match fact with
    | (s, none) => exact below.isNullable ⟨s⟩ held
    | (s, some x) =>
      rw [holds, OrderedSet.contains_iff] at held ⊢
      exact below.firstOf ⟨s⟩ ⟨x⟩ held
  simpa [facts] using later

/-! ## The loop -/

/-- With a budget for all its rounds, the loop gives what they settle on, and counts them. -/
theorem stabilise_of_settles {ps : List Production} {n budget : Nat}
    (settles : Settles (pass ps) b n c) (enough : n ≤ budget) (passes : Nat) :
    stabilise ps budget passes b = (c, passes + n) := by
  induction settles generalizing budget passes with
  | idle same =>
    cases budget with
    | zero => omega
    | succ budget => rw [stabilise, if_pos same]
  | busy changed _ ih =>
    cases budget with
    | zero => omega
    | succ budget =>
      rw [stabilise, if_neg changed, ih (by omega), Nat.add_right_comm, Nat.add_assoc]

/-- A busy pass pays for its round with a new fact, so the passes over a grammar settle. -/
theorem exists_settles_pass (ps : List Production) (sized : b.Sized g) :
    ∃ n c, Settles (pass ps) b n c ∧ n ≤ Analysis.budget g := by
  obtain ⟨n, c, settles, count⟩ := exists_settles (motive := fun b => b.Sized g)
    (fun b => (b.facts g.numSymbols).card) (fun c sized => sized.pass ps)
    (fun c sized busy => card_facts_lt (below_pass ps c) (sized.pass ps) (Ne.symm busy))
    (fun c _ => c.card_facts_le g.numSymbols) sized
  refine ⟨n, c, settles, ?_⟩
  rw [Analysis.budget]
  omega

/-! ## The analysis -/

theorem mem_firstOf_initial : x ∈ (initial g).firstOf s ↔ x = s ∧ g.isTerminal s := by
  unfold initial firstOf first? Grammar.symbols
  rw [List.getElem?_map, List.getElem?_map]
  -- a number beyond the symbols has no row, and stands for no terminal
  by_cases bound : s.index < g.numSymbols
  · rw [List.getElem?_range bound]
    dsimp only [Option.map_some, Option.getD_some]
    split <;> simp_all
  · rw [List.getElem?_eq_none (by simpa using bound)]
    simp only [Option.map_none, Option.getD_none, OrderedSet.not_mem_empty, false_iff, not_and]
    exact fun _ terminal => bound (Grammar.index_lt_of_isTerminal terminal)

theorem initial_sized (g : Grammar) : (initial g).Sized g where
  nullableLength := by simp [initial, Grammar.symbols]
  firstLength := by simp [initial, Grammar.symbols]
  members s c member := by
    obtain ⟨rfl, terminal⟩ := mem_firstOf_initial.mp member
    exact terminal

theorem settles_analysis (g : Grammar) :
    Settles (pass g.productions) (initial g) g.analysis.passes g.analysis.toBegins := by
  obtain ⟨n, b, settles, enough⟩ := exists_settles_pass g.productions (initial_sized g)
  have result := stabilise_of_settles settles enough 0
  have passes : g.analysis.passes = n := (congrArg Prod.snd result).trans (Nat.zero_add n)
  have begins : g.analysis.toBegins = b := congrArg Prod.fst result
  rw [passes, begins]
  exact settles

theorem analysis_sized (g : Grammar) : g.analysis.toBegins.Sized g :=
  (settles_analysis g).keeps (initial_sized g) fun b (sized : b.Sized g) =>
    sized.pass g.productions

/-- The analysis of a grammar has passed on everything that can be passed on. -/
theorem analysis_closed (wf : g.WellFormed) : g.analysis.toBegins.Closed g := by
  have settles := settles_analysis g
  have idle := settles.fixed
  have below : (initial g).Below g.analysis.toBegins :=
    settles.keeps (.refl _) fun b below => below.trans (below_pass g.productions b)
  have sized := analysis_sized g
  generalize g.analysis.toBegins = b at *
  have known {p : Production} (member : p ∈ g.productions) : p.lhs.index < g.numSymbols :=
    Grammar.Named.index_lt ⟨_, wf.left p member⟩
  refine ⟨fun c terminal => ?_, sized.members, fun p member all => ?_, fun p member c begins => ?_⟩
  · exact below.firstOf c c (mem_firstOf_initial.mpr ⟨rfl, terminal⟩)
  -- an idle pass is idle at every production, in its marking and in its absorbing
  all_goals
    have still := relax_of_pass idle member
    rw [relax_eq] at still
    have after := below_absorb p.lhs p.rhs (b.mark p)
    rw [still] at after
    have marked : b.mark p = b := after.antisymm (below_mark b p)
  · rw [← marked, mark, if_pos all]
    exact isNullable_set.mpr (Or.inr ⟨rfl, by rw [sized.nullableLength]; exact known member⟩)
  · rw [marked] at still
    exact firstOf_of_absorb still (by rw [sized.firstLength]; exact known member) begins

end ShiftReduce.Begins
