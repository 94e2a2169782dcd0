import Mathlib.Logic.Relation
import ShiftReduce.Proofs.Regex.Written
import ShiftReduce.Regex.Building

/-!
# What regular expressions match

An expression leads from a place in a text to those at which its matches end. Which of several
matches is preferred is left out here. Building expressions in reduced form does not change where
they lead.
-/
namespace ShiftReduce.Regex

/-- A place in a text: the character before it, `none` at the start, and what lies ahead. -/
structure Place where
  before : Option Char
  rest : List Char

/-- The text between two places. -/
def Place.Reads : Place → List Char → Place → Prop
  | p, [], q => p = q
  | p, c :: w, q => ∃ rest, p.rest = c :: rest ∧ Reads ⟨some c, rest⟩ w q

/-- A step repeated `n` times. -/
def Repeats (step : Place → Place → Prop) : Nat → Place → Place → Prop
  | 0 => Eq
  | n + 1 => Relation.Comp step (Repeats step n)

mutual

/-- Where the matches of an expression begin and end. -/
def Matches : Regex → Place → Place → Prop
  | literal text, p, q => p.Reads text q
  | one s, p, q => ∃ c, s.contains c ∧ p.Reads [c] q
  | holds a, p, q => a.test p.before p.rest.head? ∧ p = q
  | captured _ r, p, q => r.Matches p q
  -- bounds out of order mean the lower one
  | repeated r min max _, p, q =>
    ∃ n, min ≤ n ∧ (∀ m ∈ max, n ≤ Nat.max min m) ∧ Repeats r.Matches n p q
  | sequence rs, p, q => MatchesInOrder rs p q
  | choice rs, p, q => MatchesAny rs p q

/-- The same for several expressions, one behind the other. -/
def MatchesInOrder : List Regex → Place → Place → Prop
  | [], p, q => p = q
  | r :: rest, p, q => ∃ m, r.Matches p m ∧ MatchesInOrder rest m q

/-- The same for any of several expressions. -/
def MatchesAny : List Regex → Place → Place → Prop
  | [], _, _ => False
  | r :: rest, p, q => r.Matches p q ∨ MatchesAny rest p q

end

/-- Wherever it stands, an expression matches the words of a language. -/
def Spells (r : Regex) (L : Language Char) : Prop :=
  ∀ p q, r.Matches p q ↔ ∃ w ∈ L, p.Reads w q

/-- The same for several expressions, one behind the other. -/
def SpellInOrder (rs : List Regex) (L : Language Char) : Prop :=
  ∀ p q, MatchesInOrder rs p q ↔ ∃ w ∈ L, p.Reads w q

variable {p q : Place} {r : Regex} {rs ss : List Regex} {L K : Language Char} {n : Nat}
  {step : Place → Place → Prop}

/-! ## Text between places -/

theorem Place.reads_append {v w : List Char} :
    p.Reads (v ++ w) q ↔ ∃ m, p.Reads v m ∧ m.Reads w q := by
  induction v generalizing p with
  | nil => simp [Reads]
  | cons c v ih =>
    simp only [List.cons_append, Reads, ih]
    constructor
    · rintro ⟨rest, ahead, m, front, behind⟩
      exact ⟨m, ⟨rest, ahead, front⟩, behind⟩
    · rintro ⟨m, ⟨rest, ahead, front⟩, behind⟩
      exact ⟨rest, ahead, m, front, behind⟩

theorem Place.Reads.rest_eq {w : List Char} (reads : p.Reads w q) : p.rest = w ++ q.rest := by
  induction w generalizing p with
  | nil => exact congrArg Place.rest reads
  | cons c w ih =>
    obtain ⟨rest, ahead, reads⟩ := reads
    exact ahead.trans (congrArg (c :: ·) (ih reads))

theorem Place.exists_reads {w rest : List Char} (ahead : p.rest = w ++ rest) :
    ∃ before, p.Reads w ⟨before, rest⟩ := by
  induction w generalizing p with
  | nil => exact ⟨p.before, by simp [Reads, ← show p.rest = rest from ahead]⟩
  | cons c w ih =>
    obtain ⟨before, reads⟩ := ih (p := ⟨some c, w ++ rest⟩) rfl
    exact ⟨before, w ++ rest, ahead, reads⟩

/-! ## Repetition -/

theorem repeats_one : Repeats step 1 p q ↔ step p q := by simp [Repeats, Relation.comp_eq]

theorem repeats_add {m : Nat} :
    Repeats step (m + n) p q ↔ ∃ o, Repeats step m p o ∧ Repeats step n o q := by
  induction m generalizing p with
  | zero => simp [Repeats]
  | succ m ih =>
    rw [Nat.succ_add]
    simp only [Repeats, Relation.Comp, ih]
    constructor
    · rintro ⟨a, first, o, front, behind⟩
      exact ⟨o, ⟨a, first, front⟩, behind⟩
    · rintro ⟨o, ⟨a, first, front⟩, behind⟩
      exact ⟨a, first, o, front, behind⟩

/-- A step that leads nowhere else leads nowhere else when repeated. -/
theorem repeats_of_idle (idle : ∀ p q, step p q → p = q) :
    Repeats step n p q ↔ p = q ∧ (n = 0 ∨ step p p) := by
  induction n generalizing p with
  | zero => simp [Repeats]
  | succ n ih =>
    simp only [Repeats, Relation.Comp, ih]
    constructor
    · rintro ⟨m, first, rfl, -⟩
      obtain rfl := idle _ _ first
      exact ⟨rfl, .inr first⟩
    · rintro ⟨rfl, impossible | first⟩
      · cases impossible
      · exact ⟨p, first, rfl, .inr first⟩

/-! ## Sequences -/

theorem matchesInOrder_append :
    MatchesInOrder (rs ++ ss) p q ↔ ∃ m, MatchesInOrder rs p m ∧ MatchesInOrder ss m q := by
  induction rs generalizing p with
  | nil => simp [MatchesInOrder]
  | cons r rest ih =>
    simp only [List.cons_append, MatchesInOrder, ih]
    constructor
    · rintro ⟨o, first, m, front, behind⟩
      exact ⟨m, ⟨o, first, front⟩, behind⟩
    · rintro ⟨m, ⟨o, first, front⟩, behind⟩
      exact ⟨o, first, m, front, behind⟩

theorem matchesInOrder_singleton : MatchesInOrder [r] p q ↔ r.Matches p q := by
  simp [MatchesInOrder]

theorem matchesInOrder_factors : MatchesInOrder r.factors p q ↔ r.Matches p q := by
  cases r <;> simp only [factors, matchesInOrder_singleton, Matches]

theorem matchesInOrder_prepend :
    MatchesInOrder (prepend r rs) p q ↔ MatchesInOrder (r :: rs) p q := by
  fun_cases prepend r rs with
  | case1 a b rest =>
    simp only [MatchesInOrder, Matches, Place.reads_append]
    constructor
    · rintro ⟨m, ⟨o, front, behind⟩, later⟩
      exact ⟨o, front, m, behind, later⟩
    · rintro ⟨o, front, m, behind, later⟩
      exact ⟨m, ⟨o, front, behind⟩, later⟩
  | case2 => rfl

theorem matchesInOrder_foldr_prepend :
    MatchesInOrder (rs.foldr prepend []) p q ↔ MatchesInOrder rs p q := by
  induction rs generalizing p with
  | nil => rfl
  | cons r rest ih =>
    rw [List.foldr_cons, matchesInOrder_prepend]
    simp only [MatchesInOrder, ih]

theorem matchesInOrder_flatMap_factors :
    MatchesInOrder (rs.flatMap factors) p q ↔ MatchesInOrder rs p q := by
  induction rs generalizing p with
  | nil => rfl
  | cons r rest ih =>
    rw [List.flatMap_cons, matchesInOrder_append]
    simp only [MatchesInOrder, matchesInOrder_factors, ih]

/-- Putting expressions in order is a sequence of them. -/
theorem matches_inOrder : (inOrder rs).Matches p q ↔ MatchesInOrder rs p q := by
  rw [← matchesInOrder_flatMap_factors, ← matchesInOrder_foldr_prepend, inOrder]
  split
  next r single => rw [single, matchesInOrder_singleton]
  next => rw [Matches]

/-! ## Repetitions in reduced form -/

/-- Induction on expressions, with the hypothesis for every expression of a list. -/
@[elab_as_elim]
theorem induct {motive : Regex → Prop} (r : Regex) (literal : ∀ text, motive (.literal text))
    (one : ∀ set, motive (.one set)) (holds : ∀ a, motive (.holds a))
    (captured : ∀ number r, motive r → motive (.captured number r))
    (repeated : ∀ r min max isLazy, motive r → motive (.repeated r min max isLazy))
    (sequence : ∀ rs, (∀ r ∈ rs, motive r) → motive (.sequence rs))
    (choice : ∀ rs, (∀ r ∈ rs, motive r) → motive (.choice rs)) : motive r :=
  Regex.rec literal one holds captured repeated sequence choice (by simp)
    (fun _ _ first rest => List.forall_mem_cons.mpr ⟨first, rest⟩) r

theorem eq_of_neverReads (never : r.neverReads) (found : r.Matches p q) : p = q := by
  induction r using induct generalizing p q with
  | literal text =>
    obtain rfl := List.isEmpty_iff.mp never
    exact found
  | one => cases never
  | holds => exact found.2
  | captured _ _ ih => exact ih never found
  | repeated r _ _ _ ih =>
    obtain ⟨n, -, -, found⟩ := found
    exact ((repeats_of_idle fun _ _ => ih never).mp found).1
  | sequence rs ih =>
    rw [neverReads] at never
    rw [Matches] at found
    induction rs generalizing p with
    | nil => exact found
    | cons r rest later =>
      obtain ⟨first, others⟩ := List.forall_mem_cons.mp ih
      obtain ⟨never, neverLater⟩ := Bool.and_eq_true_iff.mp never
      obtain ⟨m, front, behind⟩ := found
      exact (first never front).trans (later others neverLater behind)
  | choice rs ih =>
    rw [neverReads] at never
    rw [Matches] at found
    induction rs with
    | nil => cases found
    | cons r rest later =>
      obtain ⟨first, others⟩ := List.forall_mem_cons.mp ih
      obtain ⟨never, neverLater⟩ := Bool.and_eq_true_iff.mp never
      exact found.elim (first never) (later others neverLater)

variable {min : Nat} {max : Option Nat} {isLazy : Bool}

theorem matches_exactly (n : Nat) :
    (repeated r n (some n) isLazy).Matches p q ↔ Repeats r.Matches n p q := by
  rw [Matches]
  constructor
  · rintro ⟨k, least, most, found⟩
    have most : k ≤ Nat.max n n := most n rfl
    obtain rfl : k = n := by simp at most; omega
    exact found
  · intro found
    exact ⟨n, Nat.le_refl n, fun m same => Nat.le_max_left n m, found⟩

/-- Of repetitions that read nothing only the first counts. -/
theorem matches_repeated_of_neverReads (never : r.neverReads) :
    (repeated r min max isLazy).Matches p q ↔ p = q ∧ (min = 0 ∨ r.Matches p p) := by
  simp only [Matches, repeats_of_idle fun _ _ => eq_of_neverReads never]
  constructor
  · rintro ⟨n, least, -, rfl, rfl | found⟩
    · exact ⟨rfl, .inl (Nat.le_zero.mp least)⟩
    · exact ⟨rfl, .inr found⟩
  · rintro ⟨rfl, found⟩
    exact ⟨min, Nat.le_refl min, fun m _ => Nat.le_max_left min m, rfl, found⟩

/-- A repetition in reduced form matches what it did before. -/
theorem matches_times (ordered : ∀ m ∈ max, min ≤ m) :
    (times r min max isLazy).Matches p q ↔ (repeated r min max isLazy).Matches p q := by
  unfold times
  extract_lets least most
  have same : (repeated r least most isLazy).Matches p q ↔
      (repeated r min max isLazy).Matches p q := by
    by_cases never : r.neverReads
    · have zero : least = 0 ↔ min = 0 := by grind
      rw [matches_repeated_of_neverReads never, matches_repeated_of_neverReads never, zero]
    · simp [least, most, never]
  have ordered : ∀ m ∈ most, least ≤ m := by
    cases max <;> grind
  rw [← same]
  split
  next none =>
    have zero : least = 0 := Nat.le_zero.mp (ordered 0 none)
    rw [none, zero, matches_exactly]
    simp [empty, Matches, MatchesInOrder, Repeats]
  next =>
    split
    next once => rw [once.1, once.2, matches_exactly, repeats_one]
    next => rfl

/-! ## Expressions without choices -/

mutual

/-- Whether no factor of an expression is a choice. -/
def isDecided : Regex → Bool
  | choice _ => false
  | sequence rs => allDecided rs
  | _ => true

def allDecided : List Regex → Bool
  | [] => true
  | r :: rest => r.isDecided && allDecided rest

end

theorem allDecided_iff : allDecided rs ↔ ∀ r ∈ rs, r.isDecided := by
  induction rs with
  | nil => simp [allDecided]
  | cons r rest ih => simp [allDecided, ih]

theorem isDecided_factors (decided : r.isDecided) : ∀ s ∈ r.factors, s.isDecided := by
  fun_cases factors r with
  | case1 rs => exact allDecided_iff.mp decided
  | case2 => simpa using decided

theorem isDecided_foldr_prepend (decided : ∀ s ∈ rs, s.isDecided) :
    ∀ s ∈ rs.foldr prepend [], s.isDecided := by
  induction rs with
  | nil => simp
  | cons r rest ih =>
    obtain ⟨first, others⟩ := List.forall_mem_cons.mp decided
    have others := ih others
    rw [List.foldr_cons]
    generalize rest.foldr prepend [] = behind at others
    fun_cases prepend r behind with
    | case1 a b behind => exact List.forall_mem_cons.mpr ⟨rfl, (List.forall_mem_cons.mp others).2⟩
    | case2 => exact List.forall_mem_cons.mpr ⟨first, others⟩

theorem isDecided_inOrder (decided : ∀ s ∈ rs, s.isDecided) : (inOrder rs).isDecided := by
  have factors : ∀ s ∈ rs.flatMap factors, s.isDecided := by
    intro s member
    obtain ⟨r, known, member⟩ := List.mem_flatMap.mp member
    exact isDecided_factors (decided r known) s member
  have reduced := isDecided_foldr_prepend factors
  rw [inOrder]
  split
  next r single => exact reduced r (single ▸ List.mem_singleton_self r)
  next => exact allDecided_iff.mpr reduced

theorem isDecided_times (decided : r.isDecided) : (times r min max isLazy).isDecided := by
  unfold times
  extract_lets least most
  split_ifs
  · rfl
  · exact decided
  · rfl

/-- A choice of one expression is that expression. -/
theorem anyOf_singleton (decided : r.isDecided) : anyOf [r] = r := by
  have alone : r.branches = [r] := by
    cases r with
    | choice rs => cases decided
    | _ => rfl
  have single : oneOf [r] = r := by simp [oneOf, alone]
  rw [anyOf, single]
  cases r with
  | choice rs => cases decided
  | _ => rfl

/-! ## Languages of expressions -/

theorem spells_literal (w : List Char) : Spells (literal w) {w} := by
  intro p q
  rw [Matches]
  exact ⟨fun reads => ⟨w, rfl, reads⟩, fun ⟨_, same, reads⟩ => same ▸ reads⟩

theorem SpellInOrder.nil : SpellInOrder [] 1 := by
  intro p q
  simp [MatchesInOrder, Place.Reads, Language.mem_one]

theorem SpellInOrder.append (front : SpellInOrder rs L) (behind : SpellInOrder ss K) :
    SpellInOrder (rs ++ ss) (L * K) := by
  intro p q
  simp only [matchesInOrder_append, front p, behind _ q, Language.mem_mul]
  constructor
  · rintro ⟨m, ⟨v, inFront, first⟩, w, inBehind, second⟩
    exact ⟨v ++ w, ⟨v, inFront, w, inBehind, rfl⟩, Place.reads_append.mpr ⟨m, first, second⟩⟩
  · rintro ⟨_, ⟨v, inFront, w, inBehind, rfl⟩, reads⟩
    obtain ⟨m, first, second⟩ := Place.reads_append.mp reads
    exact ⟨m, ⟨v, inFront, first⟩, w, inBehind, second⟩

theorem spellInOrder_singleton : SpellInOrder [r] L ↔ Spells r L := by
  simp only [SpellInOrder, Spells, matchesInOrder_singleton]

theorem spells_inOrder : Spells (inOrder rs) L ↔ SpellInOrder rs L := by
  simp only [SpellInOrder, Spells, matches_inOrder]

theorem Spells.repeats (spells : Spells r L) (n : Nat) :
    Repeats r.Matches n p q ↔ ∃ w ∈ L ^ n, p.Reads w q := by
  induction n generalizing p with
  | zero => simp [Repeats, Place.Reads, Language.mem_one]
  | succ n ih =>
    simp only [Repeats, Relation.Comp, spells p, ih, pow_succ', Language.mem_mul]
    constructor
    · rintro ⟨m, ⟨v, inFirst, first⟩, w, later, second⟩
      exact ⟨v ++ w, ⟨v, inFirst, w, later, rfl⟩, Place.reads_append.mpr ⟨m, first, second⟩⟩
    · rintro ⟨_, ⟨v, inFirst, w, later, rfl⟩, reads⟩
      obtain ⟨m, first, second⟩ := Place.reads_append.mp reads
      exact ⟨m, ⟨v, inFirst, first⟩, w, later, second⟩

theorem Spells.times (spells : Spells r L) (ordered : ∀ m ∈ max, min ≤ m) :
    Spells (times r min max isLazy) (powers L min max) := by
  intro p q
  rw [matches_times ordered, Matches]
  simp only [spells.repeats]
  have bound (n m : Nat) (given : m ∈ max) : n ≤ Nat.max min m ↔ n ≤ m :=
    Eq.to_iff (congrArg (n ≤ ·) (Nat.max_eq_right (ordered m given)))
  constructor
  · rintro ⟨n, least, most, w, member, reads⟩
    exact ⟨w, ⟨n, least, fun m given => (bound n m given).mp (most m given), member⟩, reads⟩
  · rintro ⟨w, ⟨n, least, most, member⟩, reads⟩
    exact ⟨n, least, fun m given => (bound n m given).mpr (most m given), w, member, reads⟩

end ShiftReduce.Regex
