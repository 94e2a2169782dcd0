import ShiftReduce.Proofs.Regex.Meaning
import ShiftReduce.Proofs.Text.CharSets
import ShiftReduce.Regex.Program

/-!
# The instructions of an expression

The instructions that an expression is laid out as lead from place to place as its matches do.
A block of instructions is entered at its beginning, and all paths that leave it do so at its exit.
Blocks are put together the way instructions are laid out.
-/
namespace ShiftReduce.Regex

/-- One instruction carried out. Where there is none, all of the expression has been matched. -/
def Code.Step (code : Code) (i : Nat) (p : Place) (j : Nat) (q : Place) : Prop :=
  match code[i]? with
  | some (.read set next) => j = next ∧ ∃ c, set.contains c ∧ p.Reads [c] q
  | some (.check a next) => j = next ∧ a.test p.before p.rest.head? ∧ p = q
  | some (.fork preferred other) => (j = preferred ∨ j = other) ∧ p = q
  | some (.jump next) => j = next ∧ p = q
  | none => False

/-- `n` instructions carried out, one after the other. -/
inductive Code.Path (code : Code) : Nat → Nat → Place → Nat → Place → Prop
  | rest (i : Nat) (p : Place) : Path code 0 i p i p
  | step {n i j k : Nat} {p q o : Place} (first : code.Step i p j q)
      (later : Path code n j q k o) : Path code (n + 1) i p k o

namespace Code

variable {code whole : Code} {i j k m n start middle stop exit : Nat} {p q o : Place}
  {M N : Place → Place → Prop}

theorem Path.trans (front : code.Path m i p j q) (behind : code.Path n j q k o) :
    code.Path (m + n) i p k o := by
  induction front with
  | rest => rwa [Nat.zero_add]
  | @step m _ _ _ _ _ _ first _ ih =>
    rw [Nat.succ_add]
    exact .step first (ih behind)

/-- A path that ends elsewhere begins with a step. -/
theorem Path.exists_step (path : code.Path n i p k o) (away : k ≠ i) : ∃ l j q,
    n = l + 1 ∧ code.Step i p j q ∧ code.Path l j q k o := by
  cases path with
  | rest => exact absurd rfl away
  | step first later => exact ⟨_, _, _, rfl, first, later⟩

/-! ## Blocks -/

/-- The instructions from `start` to before `stop` do as `M` says and go on at `exit`. -/
structure Block (code : Code) (start stop exit : Nat) (M : Place → Place → Prop) : Prop where
  -- the rest of the path is a shorter one, so that loops can be followed round by round
  sound : ∀ {n : Nat} {p q : Place} {j : Nat}, code.Path n start p j q → j < start ∨ stop ≤ j →
    ∃ l k o, l + k = n ∧ M p o ∧ code.Path k exit o j q
  complete : ∀ {p q : Place}, M p q → ∃ n, code.Path n start p exit q

theorem Block.congr (block : code.Block start stop exit M) (same : ∀ p q, N p q ↔ M p q) :
    code.Block start stop exit N where
  sound path away := by
    obtain ⟨l, k, o, split, found, later⟩ := block.sound path away
    exact ⟨l, k, o, split, (same _ _).mpr found, later⟩
  complete found := block.complete ((same _ _).mp found)

/-- A single instruction. -/
theorem Block.single (does : ∀ p j q, code.Step i p j q ↔ j = exit ∧ M p q) :
    code.Block i (i + 1) exit M where
  sound path away := by
    obtain ⟨l, j, q, rfl, first, later⟩ := path.exists_step (by omega)
    obtain ⟨rfl, found⟩ := (does _ _ _).mp first
    exact ⟨1, l, q, Nat.add_comm 1 l, found, later⟩
  complete found := ⟨1, .step ((does _ _ _).mpr ⟨rfl, found⟩) (.rest _ _)⟩

/-- Two blocks, the first of which goes on at the second. -/
theorem Block.andThen (first : code.Block start middle middle M)
    (second : code.Block middle stop exit N) (le : start ≤ middle) (le' : middle ≤ stop) :
    code.Block start stop exit (Relation.Comp M N) where
  sound path away := by
    obtain ⟨l, k, m, rfl, found, later⟩ := first.sound path (by omega)
    obtain ⟨l', k', o, rfl, found', rest⟩ := second.sound later (by omega)
    exact ⟨l + l', k', o, by omega, ⟨m, found, found'⟩, rest⟩
  complete := by
    rintro p q ⟨m, found, found'⟩
    obtain ⟨_, front⟩ := first.complete found
    obtain ⟨_, behind⟩ := second.complete found'
    exact ⟨_, front.trans behind⟩

/-- A fork between a block and its exit. -/
theorem Block.maybe (forks : ∀ p j q, code.Step start p j q ↔ (j = start + 1 ∨ j = exit) ∧ p = q)
    (body : code.Block (start + 1) stop exit M) (le : start + 1 ≤ stop) :
    code.Block start stop exit fun p q => p = q ∨ M p q where
  sound path away := by
    obtain ⟨l, j, q, rfl, first, later⟩ := path.exists_step (by omega)
    obtain ⟨rfl | rfl, rfl⟩ := (forks _ _ _).mp first
    · obtain ⟨l, k, o, rfl, found, rest⟩ := body.sound later (by omega)
      exact ⟨l + 1, k, o, by omega, .inr found, rest⟩
    · exact ⟨1, l, _, Nat.add_comm 1 l, .inl rfl, later⟩
  complete := by
    rintro p q (rfl | found)
    · exact ⟨1, .step ((forks _ _ _).mpr ⟨.inr rfl, rfl⟩) (.rest _ _)⟩
    · obtain ⟨n, path⟩ := body.complete found
      exact ⟨n + 1, .step ((forks _ _ _).mpr ⟨.inl rfl, rfl⟩) path⟩

/-- A fork between two blocks. -/
theorem Block.either (forks : ∀ p j q, code.Step start p j q ↔ (j = start + 1 ∨ j = middle) ∧ p = q)
    (first : code.Block (start + 1) middle exit M) (second : code.Block middle stop exit N)
    (le : start + 1 ≤ middle) (le' : middle ≤ stop) :
    code.Block start stop exit fun p q => M p q ∨ N p q where
  sound path away := by
    obtain ⟨l, j, q, rfl, step, later⟩ := path.exists_step (by omega)
    obtain ⟨rfl | rfl, rfl⟩ := (forks _ _ _).mp step
    · obtain ⟨l, k, o, rfl, found, rest⟩ := first.sound later (by omega)
      exact ⟨l + 1, k, o, by omega, .inl found, rest⟩
    · obtain ⟨l, k, o, rfl, found, rest⟩ := second.sound later (by omega)
      exact ⟨l + 1, k, o, by omega, .inr found, rest⟩
  complete := by
    rintro p q (found | found)
    · obtain ⟨n, path⟩ := first.complete found
      exact ⟨n + 1, .step ((forks _ _ _).mpr ⟨.inl rfl, rfl⟩) path⟩
    · obtain ⟨n, path⟩ := second.complete found
      exact ⟨n + 1, .step ((forks _ _ _).mpr ⟨.inr rfl, rfl⟩) path⟩

/-- A block that goes on at a fork before it. -/
theorem Block.star (forks : ∀ p j q, code.Step start p j q ↔ (j = start + 1 ∨ j = exit) ∧ p = q)
    (body : code.Block (start + 1) stop start M) (le : start + 1 ≤ stop) :
    code.Block start stop exit fun p q => ∃ n, Repeats M n p q where
  sound {n p q j} path away := by
    -- every round takes at least the step from the fork
    induction n using Nat.strong_induction_on generalizing p with
    | _ n ih =>
      obtain ⟨l, i, m, rfl, first, later⟩ := path.exists_step (by omega)
      obtain ⟨rfl | rfl, rfl⟩ := (forks _ _ _).mp first
      · obtain ⟨l, k, o, rfl, found, again⟩ := body.sound later (by omega)
        obtain ⟨l', k', o', rfl, ⟨count, more⟩, rest⟩ := ih k (by omega) again
        exact ⟨l + 1 + l', k', o', by omega, ⟨count + 1, o, found, more⟩, rest⟩
      · exact ⟨1, l, _, Nat.add_comm 1 l, ⟨0, rfl⟩, later⟩
  complete := by
    rintro p q ⟨n, found⟩
    induction n generalizing p with
    | zero =>
      obtain rfl := found
      exact ⟨1, .step ((forks _ _ _).mpr ⟨.inr rfl, rfl⟩) (.rest _ _)⟩
    | succ n ih =>
      obtain ⟨m, first, later⟩ := found
      obtain ⟨_, front⟩ := body.complete first
      obtain ⟨_, behind⟩ := ih later
      exact ⟨_, .step ((forks _ _ _).mpr ⟨.inl rfl, rfl⟩) (front.trans behind)⟩

/-- A block that goes on at a fork behind it. -/
theorem Block.loop (body : code.Block start stop stop M)
    (forks : ∀ p j q, code.Step stop p j q ↔ (j = start ∨ j = exit) ∧ p = q) (le : start ≤ stop) :
    code.Block start (stop + 1) exit fun p q => ∃ n, Repeats M (n + 1) p q where
  sound {n p q j} path away := by
    -- every round takes at least the step from the fork
    induction n using Nat.strong_induction_on generalizing p with
    | _ n ih =>
      obtain ⟨l, k, m, rfl, found, later⟩ := body.sound path (by omega)
      obtain ⟨k, i, o, rfl, first, again⟩ := later.exists_step (by omega)
      obtain ⟨rfl | rfl, rfl⟩ := (forks _ _ _).mp first
      · obtain ⟨l', k', o', rfl, ⟨count, more⟩, rest⟩ := ih k (by omega) again
        exact ⟨l + 1 + l', k', o', by omega, ⟨count + 1, m, found, more⟩, rest⟩
      · exact ⟨l + 1, k, m, by omega, ⟨0, m, found, rfl⟩, again⟩
  complete := by
    rintro p q ⟨n, found⟩
    induction n generalizing p with
    | zero =>
      obtain ⟨m, first, rfl⟩ := found
      obtain ⟨_, front⟩ := body.complete first
      exact ⟨_, front.trans (.step ((forks _ _ _).mpr ⟨.inr rfl, rfl⟩) (.rest _ _))⟩
    | succ n ih =>
      obtain ⟨m, first, later⟩ := found
      obtain ⟨_, front⟩ := body.complete first
      obtain ⟨_, behind⟩ := ih later
      exact ⟨_, front.trans (.step ((forks _ _ _).mpr ⟨.inl rfl, rfl⟩) behind)⟩

/-! ## Appending instructions -/

/-- Some instructions begin with others. -/
def BeginsWith (whole code : Code) : Prop := ∀ i < code.size, whole[i]? = code[i]?

theorem beginsWith_push {instruction : Instruction} : whole.BeginsWith (code.push instruction) ↔
    whole.BeginsWith code ∧ whole[code.size]? = some instruction := by
  constructor
  · intro begins
    refine ⟨fun i inside => ?_, ?_⟩
    · rw [begins i (by rw [Array.size_push]; omega), Array.getElem?_push_lt inside,
        Array.getElem?_eq_getElem inside]
    · rw [begins code.size (by rw [Array.size_push]; omega), Array.getElem?_push_size]
  · rintro ⟨begins, last⟩ i inside
    rw [Array.size_push] at inside
    rcases Nat.lt_succ_iff_lt_or_eq.mp inside with inside | rfl
    · rw [begins i inside, Array.getElem?_push_lt inside, Array.getElem?_eq_getElem inside]
    · rw [last, Array.getElem?_push_size]

theorem step_of_fork {isLazy : Bool} {on off : Nat}
    (begins : whole.BeginsWith (code.fork isLazy on off)) :
    ∀ p j q, whole.Step code.size p j q ↔ (j = on ∨ j = off) ∧ p = q := by
  intro p j q
  have found := (beginsWith_push.mp begins).2
  cases isLazy <;> simp [Step, found, or_comm]

@[simp] theorem size_fork {isLazy : Bool} {on off : Nat} :
    (code.fork isLazy on off).size = code.size + 1 := Array.size_push ..

/-- A layout appends blocks of `size` instructions that do as `M` says. -/
structure Lays (layout : Layout) (size : Nat) (M : Place → Place → Prop) : Prop where
  size_eq : ∀ (exit : Nat) (code : Code), (layout exit code).size = code.size + size
  keeps : ∀ (exit : Nat) (code whole : Code), whole.BeginsWith (layout exit code) →
    whole.BeginsWith code
  block : ∀ (exit : Nat) (code whole : Code), whole.BeginsWith (layout exit code) →
    whole.Block code.size (code.size + size) exit M

variable {first second body : Layout} {size size' : Nat}

theorem Lays.congr (lays : Lays body size M) (same : ∀ p q, N p q ↔ M p q) :
    Lays body size N where
  size_eq := lays.size_eq
  keeps := lays.keeps
  block exit code whole begins := (lays.block exit code whole begins).congr same

theorem Lays.single {instruction : Nat → Instruction}
    (does : ∀ exit (whole : Code) i, whole[i]? = some (instruction exit) →
      ∀ p j q, whole.Step i p j q ↔ j = exit ∧ M p q) :
    Lays (fun exit code => code.push (instruction exit)) 1 M where
  size_eq _ _ := Array.size_push ..
  keeps _ _ _ begins := (beginsWith_push.mp begins).1
  block exit _ whole begins := .single (does exit whole _ (beginsWith_push.mp begins).2)

theorem lays_read (s : Text.CharSet) :
    Lays (fun exit code => code.push (.read s exit)) 1 fun p q =>
      ∃ c, s.contains c ∧ p.Reads [c] q :=
  .single fun _ _ _ found p j q => by simp [Step, found]

theorem lays_check (a : Assertion) :
    Lays (fun exit code => code.push (.check a exit)) 1 fun p q =>
      a.test p.before p.rest.head? ∧ p = q :=
  .single fun _ _ _ found p j q => by simp [Step, found]

theorem lays_jump : Lays (fun exit code => code.push (.jump exit)) 1 Eq :=
  .single fun _ _ _ found p j q => by simp [Step, found]

theorem Lays.andThen (front : Lays first size M) (behind : Lays second size' N) :
    Lays (fun exit code => second exit (first (code.size + size) code)) (size + size')
      (Relation.Comp M N) where
  size_eq exit code := by rw [behind.size_eq, front.size_eq, Nat.add_assoc]
  keeps exit code whole begins := front.keeps _ _ _ (behind.keeps _ _ _ begins)
  block exit code whole begins := by
    have later := behind.block _ _ _ begins
    rw [front.size_eq] at later
    rw [← Nat.add_assoc]
    exact (front.block _ _ _ (behind.keeps _ _ _ begins)).andThen later (by omega) (by omega)

theorem Lays.maybe (lays : Lays body size M) (isLazy : Bool) :
    Lays (fun exit code => body exit (code.fork isLazy (code.size + 1) exit)) (size + 1)
      fun p q => p = q ∨ M p q where
  size_eq exit code := by rw [lays.size_eq, size_fork]; omega
  keeps exit code whole begins := (beginsWith_push.mp (lays.keeps _ _ _ begins)).1
  block exit code whole begins := by
    have inside := lays.block _ _ _ begins
    rw [size_fork, Nat.add_right_comm] at inside
    exact .maybe (step_of_fork (lays.keeps _ _ _ begins)) inside (by omega)

theorem Lays.star (lays : Lays body size M) (isLazy : Bool) :
    Lays (fun exit code => body code.size (code.fork isLazy (code.size + 1) exit)) (size + 1)
      fun p q => ∃ n, Repeats M n p q where
  size_eq exit code := by rw [lays.size_eq, size_fork]; omega
  keeps exit code whole begins := (beginsWith_push.mp (lays.keeps _ _ _ begins)).1
  block exit code whole begins := by
    have inside := lays.block _ _ _ begins
    rw [size_fork, Nat.add_right_comm] at inside
    exact .star (step_of_fork (lays.keeps _ _ _ begins)) inside (by omega)

theorem Lays.loop (lays : Lays body size M) (isLazy : Bool) :
    Lays (Code.loop body size isLazy) (size + 1) fun p q => ∃ n, Repeats M (n + 1) p q where
  size_eq exit code := by rw [Code.loop, size_fork, lays.size_eq, Nat.add_assoc]
  keeps exit code whole begins := lays.keeps _ _ _ (beginsWith_push.mp begins).1
  block exit code whole begins := by
    have forks := step_of_fork begins
    rw [lays.size_eq] at forks
    exact (lays.block _ _ _ (beginsWith_push.mp begins).1).loop forks (by omega)

theorem Lays.either (front : Lays first size M) (behind : Lays second size' N) :
    Lays (fun exit code => second exit (first exit
        (code.fork false (code.size + 1) (code.size + 1 + size)))) (size + size' + 1)
      fun p q => M p q ∨ N p q where
  size_eq exit code := by rw [behind.size_eq, front.size_eq, size_fork]; omega
  keeps exit code whole begins :=
    (beginsWith_push.mp (front.keeps _ _ _ (behind.keeps _ _ _ begins))).1
  block exit code whole begins := by
    have later := behind.block _ _ _ begins
    have begins := behind.keeps _ _ _ begins
    have here := front.block _ _ _ begins
    have stop : code.size + (size + size' + 1) = code.size + 1 + size + size' := by omega
    rw [front.size_eq, size_fork] at later
    rw [size_fork] at here
    rw [stop]
    exact .either (step_of_fork (front.keeps _ _ _ begins)) here later (by omega) (by omega)

/-- A body `n` times, and something else behind it. -/
theorem Lays.copies (lays : Lays body size M) (behind : Lays second size' N) (n : Nat) :
    Lays (fun exit code => second exit (Code.copies body size n code)) (n * size + size')
      (Relation.Comp (Repeats M n) N) := by
  induction n with
  | zero =>
    rw [Nat.zero_mul, Nat.zero_add]
    exact behind.congr fun p q => by simp [Repeats, Relation.Comp]
  | succ n ih =>
    have whole := lays.andThen ih
    rw [← Nat.add_assoc, ← Nat.add_comm (n * size), ← Nat.succ_mul] at whole
    exact whole.congr fun p q => by simp only [Repeats, Relation.comp_assoc]

/-- A body up to `n` times. -/
theorem Lays.optional (lays : Lays body size M) (isLazy : Bool) (n : Nat) :
    Lays (fun exit code => Code.optional body size isLazy exit (n + 1) code) ((n + 1) * (size + 1))
      fun p q => ∃ k ≤ n + 1, Repeats M k p q := by
  induction n with
  | zero =>
    rw [Nat.zero_add, Nat.one_mul]
    refine Lays.congr (lays.maybe isLazy) fun p q => ?_
    constructor
    · rintro ⟨k, most, found⟩
      rcases Nat.le_one_iff_eq_zero_or_eq_one.mp most with rfl | rfl
      · exact .inl found
      · exact .inr (repeats_one.mp found)
    · rintro (rfl | found)
      · exact ⟨0, Nat.zero_le 1, rfl⟩
      · exact ⟨1, Nat.le_refl 1, repeats_one.mpr found⟩
  | succ n ih =>
    have whole := (lays.andThen ih).maybe isLazy
    have total : size + (n + 1) * (size + 1) + 1 = (n + 1 + 1) * (size + 1) := by
      rw [Nat.succ_mul (n + 1)]
      omega
    rw [total] at whole
    simp only [size_fork] at whole
    refine Lays.congr whole fun p q => ?_
    constructor
    · rintro ⟨k, most, found⟩
      cases k with
      | zero => exact .inl found
      | succ k =>
        obtain ⟨m, first, later⟩ := found
        exact .inr ⟨m, first, k, by omega, later⟩
    · rintro (rfl | ⟨m, first, k, most, later⟩)
      · exact ⟨0, Nat.zero_le _, rfl⟩
      · exact ⟨k + 1, by omega, m, first, later⟩

theorem lays_spell (text : List Char) :
    Lays (fun exit code => code.spell exit text) (max 1 text.length) fun p q => p.Reads text q := by
  induction text with
  | nil => exact lays_jump
  | cons c rest ih =>
    -- the last character goes on at the exit itself, without a jump
    have first := (lays_read (.single c)).congr (N := fun p q => p.Reads [c] q) fun p q => by
      simp [Text.CharSet.contains_single]
    cases rest with
    | nil => exact first
    | cons d rest =>
      have whole := first.andThen ih
      have total : 1 + max 1 (d :: rest).length = max 1 (c :: d :: rest).length := by
        simp only [List.length_cons]
        omega
      rw [total] at whole
      exact whole.congr fun p q => Place.reads_append (v := [c])

end Code

open Code

variable {rs : List Regex}

theorem totalSize_eq (n : Nat) (rs : List Regex) : totalSize n rs = n + totalSize 0 rs := by
  induction rs generalizing n with
  | nil => rfl
  | cons r rest ih => rw [totalSize, totalSize, ih, ih (0 + r.size), Nat.zero_add, Nat.add_assoc]

theorem totalSize_cons (r : Regex) (rs : List Regex) :
    totalSize 0 (r :: rs) = r.size + totalSize 0 rs := by
  rw [totalSize, totalSize_eq, Nat.zero_add]

/-- An expression is laid out as it matches. -/
def LaidOut (r : Regex) : Prop := 0 < r.size ∧ Lays r.layOut r.size r.Matches

theorem lays_inOrder (each : ∀ r ∈ rs, r.LaidOut) :
    Lays (layOutInOrder rs) (Nat.max 1 (totalSize 0 rs)) (MatchesInOrder rs) := by
  induction rs with
  | nil => exact lays_jump
  | cons r rest ih =>
    obtain ⟨⟨positive, lays⟩, others⟩ := List.forall_mem_cons.mp each
    cases rest with
    | nil =>
      have total : Nat.max 1 (totalSize 0 [r]) = r.size := by
        rw [totalSize_cons, totalSize, Nat.add_zero]
        exact Nat.max_eq_right positive
      rw [total]
      exact lays.congr fun p q => matchesInOrder_singleton
    | cons s rest =>
      have whole := lays.andThen (ih others)
      have next := (others s (List.mem_cons_self ..)).1
      have total : r.size + Nat.max 1 (totalSize 0 (s :: rest)) =
          Nat.max 1 (totalSize 0 (r :: s :: rest)) := by
        simp only [totalSize_cons, Nat.max_def]
        split_ifs <;> omega
      rw [total] at whole
      exact whole

theorem lays_branches (each : ∀ r ∈ rs, r.LaidOut) :
    Lays (layOutBranches rs) (Nat.max 1 (totalSize 0 rs + (rs.length - 1))) (MatchesAny rs) := by
  induction rs with
  | nil =>
    refine (lays_read .empty).congr fun p q => ?_
    simp [MatchesAny, Text.CharSet.contains, Text.CharSet.empty, Text.CharSet.side]
  | cons r rest ih =>
    obtain ⟨⟨positive, lays⟩, others⟩ := List.forall_mem_cons.mp each
    cases rest with
    | nil =>
      have total : Nat.max 1 (totalSize 0 [r] + ([r].length - 1)) = r.size := by
        rw [totalSize_cons, totalSize, Nat.add_zero]
        exact Nat.max_eq_right positive
      rw [total]
      exact lays.congr fun p q => by simp [MatchesAny]
    | cons s rest =>
      have whole := lays.either (ih others)
      have next := (others s (List.mem_cons_self ..)).1
      have total : r.size + Nat.max 1 (totalSize 0 (s :: rest) + ((s :: rest).length - 1)) + 1 =
          Nat.max 1 (totalSize 0 (r :: s :: rest) + ((r :: s :: rest).length - 1)) := by
        simp only [totalSize_cons, List.length_cons, Nat.max_def]
        split_ifs <;> omega
      rw [total] at whole
      exact whole

/-- A repetition without an upper bound. -/
theorem laidOut_unbounded {r : Regex} (laid : r.LaidOut) (min : Nat) (isLazy : Bool) :
    (repeated r min none isLazy).LaidOut := by
  obtain ⟨positive, lays⟩ := laid
  unfold LaidOut
  have least (p q : Place) : (repeated r min none isLazy).Matches p q ↔
      ∃ n, Repeats r.Matches (min + n) p q := by
    rw [Matches]
    constructor
    · rintro ⟨n, least, -, found⟩
      exact ⟨n - min, by rwa [Nat.add_sub_cancel' least]⟩
    · rintro ⟨n, found⟩
      exact ⟨min + n, Nat.le_add_right _ _, by simp, found⟩
  cases min with
  | zero =>
    simp only [Nat.zero_add] at least
    by_cases reads : r.alwaysReads
    · simp only [size, layOut, reads, if_true]
      exact ⟨Nat.succ_pos _, (lays.star isLazy).congr least⟩
    · simp only [size, layOut, reads, if_true]
      refine ⟨Nat.succ_pos _, ((lays.loop isLazy).maybe isLazy).congr fun p q => ?_⟩
      rw [least]
      constructor
      · rintro ⟨n, found⟩
        cases n with
        | zero => exact .inl found
        | succ n => exact .inr ⟨n, found⟩
      · rintro (rfl | ⟨n, found⟩)
        · exact ⟨0, rfl⟩
        · exact ⟨n + 1, found⟩
  | succ min =>
    have whole := lays.copies (lays.loop isLazy) min
    have total : min * r.size + (r.size + 1) = (repeated r (min + 1) none isLazy).size := by
      rw [size, if_neg (Nat.succ_ne_zero min), Nat.succ_mul, Nat.add_assoc]
    rw [total] at whole
    refine ⟨by rw [size, if_neg (Nat.succ_ne_zero min)]; exact Nat.succ_pos _,
      whole.congr fun p q => ?_⟩
    rw [least]
    simp only [Nat.add_assoc, Nat.add_comm 1, repeats_add]
    constructor
    · rintro ⟨n, o, front, behind⟩
      exact ⟨o, front, n, behind⟩
    · rintro ⟨o, front, n, behind⟩
      exact ⟨n, o, front, behind⟩

/-- A repetition with an upper bound. -/
theorem laidOut_bounded {r : Regex} (laid : r.LaidOut) (min max : Nat) (isLazy : Bool) :
    (repeated r min (some max) isLazy).LaidOut := by
  obtain ⟨positive, lays⟩ := laid
  refine ⟨Nat.le_max_left _ _, ?_⟩
  have bounds (p q : Place) : (repeated r min (some max) isLazy).Matches p q ↔
      ∃ n ≤ max - min, Repeats r.Matches (min + n) p q := by
    rw [Matches]
    constructor
    · rintro ⟨n, least, most, found⟩
      have most : n ≤ Max.max min max := most max rfl
      exact ⟨n - min, by omega, by rwa [Nat.add_sub_cancel' least]⟩
    · rintro ⟨n, most, found⟩
      refine ⟨min + n, Nat.le_add_right _ _, ?_, found⟩
      rintro _ ⟨⟩
      have bound : min + n ≤ Max.max min max := by omega
      exact bound
  have total : (repeated r min (some max) isLazy).size =
      Nat.max 1 (min * r.size + (max - min) * (r.size + 1)) := by rw [size]
  rw [total]
  cases more : max - min with
  | zero =>
    have exactly (p q : Place) : (repeated r min (some max) isLazy).Matches p q ↔
        Repeats r.Matches min p q := by simp [bounds, more]
    rw [Nat.zero_mul, Nat.add_zero]
    cases min with
    | zero =>
      have laid : layOut (repeated r 0 (some max) isLazy) =
          fun exit code => code.push (.jump exit) := by
        funext exit code
        simp only [layOut, more]
      rw [laid, Nat.zero_mul]
      exact lays_jump.congr exactly
    | succ min =>
      have laid : layOut (repeated r (min + 1) (some max) isLazy) =
          fun exit code => r.layOut exit (Code.copies r.layOut r.size min code) := by
        funext exit code
        simp only [layOut, more]
      have size : Nat.max 1 ((min + 1) * r.size) = min * r.size + r.size := by
        rw [Nat.succ_mul]
        exact Nat.max_eq_right (by omega)
      rw [laid, size]
      refine (lays.copies lays min).congr fun p q => ?_
      rw [exactly, repeats_add]
      simp only [repeats_one, Relation.Comp]
  | succ more' =>
    have laid : layOut (repeated r min (some max) isLazy) = fun exit code =>
        Code.optional r.layOut r.size isLazy exit (more' + 1)
          (Code.copies r.layOut r.size min code) := by
      funext exit code
      cases min <;> simp only [layOut, more]
    have size : Nat.max 1 (min * r.size + (more' + 1) * (r.size + 1)) =
        min * r.size + (more' + 1) * (r.size + 1) := by
      rw [Nat.succ_mul]
      exact Nat.max_eq_right (by omega)
    rw [laid, size]
    refine (lays.copies (lays.optional isLazy more') min).congr fun p q => ?_
    rw [bounds, more]
    simp only [repeats_add]
    constructor
    · rintro ⟨n, most, o, front, behind⟩
      exact ⟨o, front, n, most, behind⟩
    · rintro ⟨o, front, n, most, behind⟩
      exact ⟨n, most, o, front, behind⟩

theorem laidOut (r : Regex) : r.LaidOut := by
  induction r using induct with
  | literal text => exact ⟨Nat.le_max_left _ _, lays_spell text⟩
  | one s => exact ⟨Nat.one_pos, lays_read s⟩
  | holds a => exact ⟨Nat.one_pos, lays_check a⟩
  | captured number r ih => exact ih
  | repeated r min max isLazy ih =>
    cases max with
    | none => exact laidOut_unbounded ih min isLazy
    | some max => exact laidOut_bounded ih min max isLazy
  | sequence rs ih => exact ⟨Nat.le_max_left _ _, lays_inOrder ih⟩
  | choice rs ih => exact ⟨Nat.le_max_left _ _, lays_branches ih⟩

end ShiftReduce.Regex
