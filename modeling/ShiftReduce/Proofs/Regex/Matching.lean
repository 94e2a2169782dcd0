import Mathlib.Data.Finset.Card
import ShiftReduce.Proofs.Regex.Layout
import ShiftReduce.Regex.Matching

/-!
# Matching

A program finds a match exactly where its expression has one: every length it comes to is that of a
match, and if it comes to none there is no match. To follow instructions without reading reaches all
that can be reached, since no instruction is left before all that it leads to are visited.
-/
namespace ShiftReduce.Regex

open Relation

/-- Where an instruction leads without reading, between two neighbouring characters. -/
def Code.Leads (code : Code) (before after : Option Char) (i j : Nat) : Prop :=
  match code[i]? with
  | some (.check a next) => a.test before after ∧ j = next
  | some (.fork preferred other) => j = preferred ∨ j = other
  | some (.jump next) => j = next
  | _ => False

theorem Code.step_iff {code : Code} {i j : Nat} {p q : Place} : code.Step i p j q ↔
    code.Leads p.before p.rest.head? i j ∧ p = q ∨
      ∃ set c, code[i]? = some (.read set j) ∧ set.contains c ∧ p.Reads [c] q := by
  unfold Step Leads
  cases code[i]? with
  | none => simp
  | some instruction =>
    cases instruction with
    | read set next =>
      constructor
      · rintro ⟨rfl, c, member, reads⟩
        exact .inr ⟨set, c, rfl, member, reads⟩
      · rintro (⟨⟨⟩, -⟩ | ⟨_, c, ⟨⟩, member, reads⟩)
        exact ⟨rfl, c, member, reads⟩
    | check a next => simp [and_assoc, and_left_comm]
    | fork preferred other => simp
    | jump next => simp

/-- From an instruction a place is come to where all of the expression has been matched. -/
def Code.Accepts (code : Code) (i : Nat) (p o : Place) : Prop :=
  ∃ n k, code.Path n i p k o ∧ code[k]? = none

/-- A match ends where it has come to without reading, or goes on with a character. -/
theorem Code.accepts_iff {code : Code} {i : Nat} {p o : Place} : code.Accepts i p o ↔
    ∃ k, ReflTransGen (code.Leads p.before p.rest.head?) i k ∧
      (code[k]? = none ∧ p = o ∨ ∃ set next c q, code[k]? = some (.read set next) ∧
        set.contains c ∧ p.Reads [c] q ∧ code.Accepts next q o) := by
  constructor
  · rintro ⟨n, k, path, final⟩
    -- up to the first instruction that reads; the rest of the path is kept as it is
    induction path with
    | rest i p => exact ⟨i, .refl, .inl ⟨final, rfl⟩⟩
    | @step n i j k p q o first later ih =>
      rcases step_iff.mp first with ⟨leads, rfl⟩ | ⟨set, c, here, member, reads⟩
      · obtain ⟨l, path, found⟩ := ih final
        exact ⟨l, .head leads path, found⟩
      · exact ⟨i, .refl, .inr ⟨set, j, c, q, here, member, reads, n, k, later, final⟩⟩
  · rintro ⟨k, path, found⟩
    induction path using ReflTransGen.head_induction_on with
    | refl =>
      rcases found with ⟨final, rfl⟩ | ⟨set, next, c, q, here, member, reads, n, l, later, final⟩
      · exact ⟨0, k, .rest k p, final⟩
      · exact ⟨n + 1, l, .step (step_iff.mpr (.inr ⟨set, c, here, member, reads⟩)) later, final⟩
    | head leads _ ih =>
      obtain ⟨n, l, later, final⟩ := ih
      exact ⟨n + 1, l, .step (step_iff.mpr (.inl ⟨leads, rfl⟩)) later, final⟩

/-- An instruction is reached from one of several places without reading. -/
def Code.Reaches (code : Code) (before after : Option Char) (places : List Nat) (i : Nat) : Prop :=
  ∃ j ∈ places, ReflTransGen (code.Leads before after) j i

namespace Program

variable {p : Program} {code : Code} {before after : Option Char} {place i : Nat}
  {places more : List Nat} {visited : Std.TreeSet Nat} {readers given : List (Text.CharSet × Nat)}
  {budget : Nat} {found : Frontier} {instruction : Instruction}

theorem reaches_of_mem (member : i ∈ places) : code.Reaches before after places i :=
  ⟨i, member, .refl⟩

/-- The places put in the place of an instruction are some that it leads to. -/
theorem reaches_of_leads (leads : ∀ j ∈ more, code.Leads before after place j ∨ j ∈ places) :
    ∀ j ∈ more, code.Reaches before after (place :: places) j := by
  intro j member
  rcases leads j member with here | later
  · exact ⟨place, List.mem_cons_self .., .single here⟩
  · exact reaches_of_mem (List.mem_cons_of_mem _ later)

/-! ## What is found is reached -/

/-- A frontier is one of instructions that are reached from some places, or were given. -/
structure Sound (code : Code) (before after : Option Char) (places : List Nat)
    (given : List (Text.CharSet × Nat)) (found : Frontier) : Prop where
  readers : ∀ reader ∈ found.readers, reader ∈ given ∨
    ∃ i, code.Reaches before after places i ∧ code[i]? = some (.read reader.1 reader.2)
  isMatch : found.isMatch → ∃ i, code.Reaches before after places i ∧ code[i]? = none

theorem Sound.mono (sound : Sound code before after more given found)
    (known : ∀ j ∈ more, code.Reaches before after places j) :
    Sound code before after places given found := by
  have onward (i : Nat) (reaches : code.Reaches before after more i) :
      code.Reaches before after places i := by
    obtain ⟨j, member, path⟩ := reaches
    obtain ⟨k, member, front⟩ := known j member
    exact ⟨k, member, front.trans path⟩
  constructor
  · intro reader member
    exact (sound.readers reader member).imp_right fun ⟨i, reaches, here⟩ =>
      ⟨i, onward i reaches, here⟩
  · intro isMatch
    obtain ⟨i, reaches, here⟩ := sound.isMatch isMatch
    exact ⟨i, onward i reaches, here⟩

theorem sound_follow (p : Program) (before after : Option Char) (budget : Nat) (places : List Nat)
    (visited : Std.TreeSet Nat) (readers : List (Text.CharSet × Nat)) :
    Sound p.instructions before after places readers
      (p.follow before after budget places visited readers) := by
  fun_induction follow p before after budget places visited readers with
  | case1 | case2 => exact ⟨fun _ member => .inl (List.mem_reverse.mp member), by simp⟩
  | case3 budget place places visited readers seen ih =>
    exact ih.mono fun j member => reaches_of_mem (List.mem_cons_of_mem _ member)
  | case4 budget place places visited readers fresh set next here ih =>
    have later : Sound p.instructions before after (place :: places) ((set, next) :: readers) _ :=
      ih.mono fun j member => reaches_of_mem (List.mem_cons_of_mem _ member)
    refine ⟨fun reader member => ?_, later.isMatch⟩
    rcases later.readers reader member with old | new
    · rcases List.mem_cons.mp old with rfl | old
      · exact .inr ⟨place, reaches_of_mem (List.mem_cons_self ..), here⟩
      · exact .inl old
    · exact .inr new
  | case5 budget place places visited readers fresh a next here places' ih =>
    refine ih.mono (reaches_of_leads fun j member => ?_)
    rw [Code.Leads, here]
    grind
  | case6 budget place places visited readers fresh preferred other here ih =>
    refine ih.mono (reaches_of_leads fun j member => ?_)
    rw [Code.Leads, here]
    grind
  | case7 budget place places visited readers fresh next here ih =>
    refine ih.mono (reaches_of_leads fun j member => ?_)
    rw [Code.Leads, here]
    grind
  | case8 budget place places visited readers fresh here =>
    exact ⟨fun _ member => .inl (List.mem_reverse.mp member),
      fun _ => ⟨place, reaches_of_mem (List.mem_cons_self ..), here⟩⟩

/-! ## What is reached is found -/

/-- What has been visited leads nowhere but to what has been visited, or will be. -/
structure Explored (code : Code) (before after : Option Char) (places : List Nat)
    (visited : Std.TreeSet Nat) (readers : List (Text.CharSet × Nat)) : Prop where
  closed : ∀ i, visited.contains i → ∀ j, code.Leads before after i j →
    visited.contains j ∨ j ∈ places
  inside : ∀ i, visited.contains i → i < code.size
  read : ∀ i, visited.contains i → ∀ set next, code[i]? = some (.read set next) →
    (set, next) ∈ readers

theorem Explored.visit (explored : Explored code before after (place :: places) visited readers)
    (here : code[place]? = some instruction) (kept : ∀ j ∈ places, j ∈ more)
    (leads : ∀ j, code.Leads before after place j → j ∈ more)
    (read : ∀ set next, instruction = .read set next → (set, next) ∈ given)
    (old : ∀ reader ∈ readers, reader ∈ given) :
    Explored code before after more (visited.insert place) given := by
  have split (i : Nat) : (visited.insert place).contains i ↔ place = i ∨ visited.contains i := by
    simp [Std.TreeSet.contains_insert]
  constructor
  · intro i known j leadsTo
    rw [split]
    rcases (split i).mp known with rfl | known
    · exact .inr (leads j leadsTo)
    · rcases explored.closed i known j leadsTo with seen | listed
      · exact .inl (.inr seen)
      · rcases List.mem_cons.mp listed with rfl | listed
        · exact .inl (.inl rfl)
        · exact .inr (kept j listed)
  · intro i known
    rcases (split i).mp known with rfl | known
    · exact (Array.getElem?_eq_some_iff.mp here).1
    · exact explored.inside i known
  · intro i known set next reads
    rcases (split i).mp known with rfl | known
    · exact read set next (Option.some.inj (here.symm.trans reads))
    · exact old _ (explored.read i known set next reads)

/-- The number of instructions not visited yet. -/
def unvisited (p : Program) (visited : Std.TreeSet Nat) : Nat :=
  ((Finset.range p.size).filter fun i => ¬ visited.contains i).card

theorem unvisited_insert (here : p.instructions[place]? = some instruction)
    (fresh : ¬ visited.contains place) :
    p.unvisited (visited.insert place) + 1 = p.unvisited visited := by
  have inside : place < p.size := (Array.getElem?_eq_some_iff.mp here).1
  have member : place ∈ (Finset.range p.size).filter fun i => ¬ visited.contains i :=
    Finset.mem_filter.mpr ⟨Finset.mem_range.mpr inside, fresh⟩
  unfold unvisited
  rw [← Finset.card_erase_add_one member]
  congr 2
  ext i
  simp [Std.TreeSet.contains_insert]
  grind

/-- What holds of all places that are known behind an instruction holds of those known before. -/
theorem forall_known {holds : Nat → Prop}
    (later : ∀ i, (visited.insert place).contains i ∨ i ∈ more → holds i)
    (kept : ∀ j ∈ places, j ∈ more) : ∀ i, visited.contains i ∨ i ∈ place :: places → holds i := by
  intro i known
  refine later i ?_
  rw [Std.TreeSet.contains_insert]
  rcases known with seen | listed
  · exact .inl (by simp [seen])
  · rcases List.mem_cons.mp listed with rfl | listed
    · exact .inl (by simp)
    · exact .inr (kept i listed)

theorem follow_complete (explored : Explored p.instructions before after places visited readers)
    (enough : places.length + 2 * p.unvisited visited ≤ budget)
    (unmatched : ¬ (p.follow before after budget places visited readers).isMatch) :
    ∀ i, visited.contains i ∨ i ∈ places → ∀ j,
      ReflTransGen (p.instructions.Leads before after) i j → j < p.size ∧
        ∀ set next, p.instructions[j]? = some (.read set next) →
          (set, next) ∈ (p.follow before after budget places visited readers).readers := by
  fun_induction follow p before after budget places visited readers with
  | case1 budget visited readers =>
    -- nothing is left to be visited, so that what has been is closed
    intro i known j path
    have seen : visited.contains j := by
      induction path with
      | refl => simpa using known
      | tail _ leads ih => simpa using explored.closed _ ih _ leads
    exact ⟨explored.inside j seen, fun set next here =>
      List.mem_reverse.mpr (explored.read j seen set next here)⟩
  -- a visit adds two places at most, and the budget has two for every instruction not visited yet
  | case2 => simp at enough
  | case3 budget place places visited readers seen ih =>
    have rest : Explored p.instructions before after places visited readers :=
      { explored with
        closed := fun i known j leads => by
          rcases explored.closed i known j leads with old | listed
          · exact .inl old
          · rcases List.mem_cons.mp listed with rfl | listed
            · exact .inl seen
            · exact .inr listed }
    intro i known
    refine ih rest (by rw [List.length_cons] at enough; omega) unmatched i ?_
    rcases known with old | listed
    · exact .inl old
    · rcases List.mem_cons.mp listed with rfl | listed
      · exact .inl seen
      · exact .inr listed
  | case4 budget place places visited readers fresh set next here ih =>
    have less := unvisited_insert here fresh
    have kept : ∀ j ∈ places, j ∈ places := fun _ => id
    refine forall_known (ih (explored.visit here kept ?_ ?_ ?_) ?_ unmatched) kept
    · simp [Code.Leads, here]
    · simp
    · exact fun _ => List.mem_cons_of_mem _
    · rw [List.length_cons] at enough
      omega
  | case5 budget place places visited readers fresh a next here places' ih =>
    have less := unvisited_insert here fresh
    have kept : ∀ j ∈ places, j ∈ places' := by grind
    refine forall_known (ih (explored.visit here kept ?_ ?_ ?_) ?_ unmatched) kept
    · simp only [Code.Leads, here]
      grind
    · simp
    · exact fun _ => id
    · rw [List.length_cons] at enough
      grind
  | case6 budget place places visited readers fresh preferred other here ih =>
    have less := unvisited_insert here fresh
    have kept : ∀ j ∈ places, j ∈ preferred :: other :: places := by grind
    refine forall_known (ih (explored.visit here kept ?_ ?_ ?_) ?_ unmatched) kept
    · simp only [Code.Leads, here]
      grind
    · simp
    · exact fun _ => id
    · simp only [List.length_cons] at enough ⊢
      omega
  | case7 budget place places visited readers fresh next here ih =>
    have less := unvisited_insert here fresh
    have kept : ∀ j ∈ places, j ∈ next :: places := by grind
    refine forall_known (ih (explored.visit here kept ?_ ?_ ?_) ?_ unmatched) kept
    · simp only [Code.Leads, here]
      grind
    · simp
    · exact fun _ => id
    · simp only [List.length_cons] at enough ⊢
      omega
  | case8 budget place places visited readers fresh here => simp at unmatched

/-- The frontier of some places: what is reached from them. -/
theorem frontier_spec (p : Program) (before after : Option Char) (places : List Nat) :
    Sound p.instructions before after places [] (p.frontier before after places) ∧
      (¬ (p.frontier before after places).isMatch →
        ∀ i, p.instructions.Reaches before after places i → i < p.size ∧
          ∀ set next, p.instructions[i]? = some (.read set next) →
            (set, next) ∈ (p.frontier before after places).readers) := by
  refine ⟨sound_follow .., fun unmatched i reaches => ?_⟩
  obtain ⟨j, member, path⟩ := reaches
  have none : Explored p.instructions before after places .empty [] := by
    constructor <;> simp
  have all : p.unvisited .empty = p.size := by simp [unvisited]
  exact follow_complete none (by rw [all]) unmatched j (.inr member) i path

/-! ## Runs -/

/-- The places that follow where a character is read. -/
theorem mem_next {c : Char} : i ∈ (found.readers.filterMap fun (set, next) =>
    if set.contains c then some next else none) ↔
      ∃ set, (set, i) ∈ found.readers ∧ set.contains c := by
  simp [List.mem_filterMap]

variable {count n : Nat} {best : Option Nat} {c : Char} {rest : List Char}

/-- The best match after a place has been looked at. -/
theorem best_of_isMatch (sound : Sound p.instructions before rest.head? places [] found)
    (same : (if found.isMatch then some count else best) = some n) : best = some n ∨
      ∃ i ∈ places, ∃ o w, p.instructions.Accepts i ⟨before, rest⟩ o ∧
        Place.Reads ⟨before, rest⟩ w o ∧ n = count + w.length := by
  split at same
  next isMatch =>
    obtain ⟨k, ⟨i, member, path⟩, final⟩ := sound.isMatch isMatch
    cases same
    exact .inr ⟨i, member, ⟨before, rest⟩, [],
      Code.accepts_iff.mpr ⟨k, path, .inl ⟨final, rfl⟩⟩, rfl, rfl⟩
  next => exact .inl same

theorem run_sound (found : p.run before places count best rest = some n) : best = some n ∨
    ∃ i ∈ places, ∃ o w, p.instructions.Accepts i ⟨before, rest⟩ o ∧
      Place.Reads ⟨before, rest⟩ w o ∧ n = count + w.length := by
  induction rest generalizing before places count best with
  | nil =>
    unfold run at found
    exact best_of_isMatch (p.frontier_spec before none places).1 found
  | cons c rest ih =>
    have sound := (p.frontier_spec before (some c) places).1
    unfold run at found
    dsimp only at found
    split at found
    · exact best_of_isMatch sound found
    · rcases ih found with same | ⟨i, next, o, w, accepts, reads, rfl⟩
      · exact best_of_isMatch sound same
      · obtain ⟨set, member, contains⟩ := mem_next.mp next
        obtain ⟨k, ⟨j, listed, path⟩, here⟩ :=
          (sound.readers (set, i) member).resolve_left List.not_mem_nil
        refine .inr ⟨j, listed, o, c :: w, ?_, ⟨rest, rfl, reads⟩, ?_⟩
        · exact Code.accepts_iff.mpr ⟨k, path, .inr
            ⟨set, i, c, ⟨some c, rest⟩, here, contains, ⟨rest, rfl, rfl⟩, accepts⟩⟩
        · rw [List.length_cons]
          omega

/-- What a place leads to if its frontier holds no match. -/
theorem not_accepts_of_frontier (unmatched : ¬ (p.frontier before rest.head? places).isMatch)
    (onward : ∀ set next c behind, (set, next) ∈ (p.frontier before rest.head? places).readers →
      rest = c :: behind → set.contains c → ∀ o, ¬ p.instructions.Accepts next ⟨some c, behind⟩ o) :
    ∀ i ∈ places, ∀ o, ¬ p.instructions.Accepts i ⟨before, rest⟩ o := by
  intro i member o accepts
  obtain ⟨k, path, found⟩ := Code.accepts_iff.mp accepts
  obtain ⟨inside, readers⟩ :=
    (p.frontier_spec before rest.head? places).2 unmatched k ⟨i, member, path⟩
  rcases found with ⟨final, -⟩ | ⟨set, next, c, _, here, contains, ⟨behind, ahead, rfl⟩, later⟩
  · exact absurd (Array.getElem?_eq_none_iff.mp final) (Nat.not_le.mpr inside)
  · exact onward set next c behind (readers set next here) ahead contains o later

theorem run_complete (unmatched : p.run before places count best rest = none) :
    best = none ∧ ∀ i ∈ places, ∀ o, ¬ p.instructions.Accepts i ⟨before, rest⟩ o := by
  induction rest generalizing before places count best with
  | nil =>
    unfold run at unmatched
    dsimp only at unmatched
    split at unmatched
    · cases unmatched
    next noMatch =>
      refine ⟨unmatched, not_accepts_of_frontier noMatch fun _ _ _ _ _ ahead => ?_⟩
      cases ahead
  | cons c rest ih =>
    unfold run at unmatched
    dsimp only [List.head?_cons] at unmatched
    -- without a place to go on from, the best match so far is the result at once
    generalize ways : (p.frontier before (some c) places).readers.filterMap
      (fun (set, next) => if set.contains c then some next else none) = nexts at unmatched
    have done : (if (p.frontier before (some c) places).isMatch then some count else best) = none ∧
        ∀ i ∈ nexts, ∀ o, ¬ p.instructions.Accepts i ⟨some c, rest⟩ o := by
      cases nexts with
      | nil => exact ⟨unmatched, by simp⟩
      | cons => exact ih unmatched
    obtain ⟨noMatch, later⟩ := done
    split at noMatch
    · cases noMatch
    next unmatched =>
      refine ⟨noMatch, not_accepts_of_frontier unmatched ?_⟩
      rintro set next _ _ member ⟨⟩ contains
      exact later next (ways ▸ mem_next.mpr ⟨set, member, contains⟩)

end Program

/-! ## Matches of an expression -/

/-- The instructions of an expression come to the end of its matches. -/
theorem accepts_layOut {r : Regex} {p o : Place} :
    (Program.ofRegex r).instructions.Accepts 0 p o ↔ r.Matches p o := by
  obtain ⟨-, lays⟩ := laidOut r
  have block := lays.block r.size #[] _ fun _ _ => rfl
  have size : (r.layOut r.size #[]).size = r.size := by rw [lays.size_eq, List.size_toArray]; simp
  rw [List.size_toArray, List.length_nil, Nat.zero_add] at block
  have final : (r.layOut r.size #[])[r.size]? = none := Array.getElem?_eq_none_iff.mpr size.le
  constructor
  · rintro ⟨n, k, path, stop⟩
    -- there is no instruction behind the block, so that a path that has left it is at its end
    have outside : r.size ≤ k := size ▸ Array.getElem?_eq_none_iff.mp stop
    obtain ⟨l, m, q, -, found, rest⟩ := block.sound path (.inr outside)
    cases rest with
    | rest => exact found
    | step first =>
      rw [Code.Step, final] at first
      cases first
  · intro found
    obtain ⟨n, path⟩ := block.complete found
    exact ⟨n, r.size, path, final⟩

/-- An expression that is bound to the start of a text is found there with the length of one of its
matches, if it has any. -/
theorem matchEnd_spec {r : Regex} (anchored : r.beginsWith .textStart) (text : List Char) :
    (∀ n, (Program.ofRegex r).matchEnd text = some n →
      ∃ q w, r.Matches ⟨none, text⟩ q ∧ Place.Reads ⟨none, text⟩ w q ∧ n = w.length) ∧
    ((Program.ofRegex r).matchEnd text = none → ∀ q, ¬ r.Matches ⟨none, text⟩ q) := by
  have bound : (Program.ofRegex r).isAnchored = true := anchored
  have search : (Program.ofRegex r).matchEnd text =
      (Program.ofRegex r).run none [0] 0 none text := by
    unfold Program.matchEnd Program.search
    cases (Program.ofRegex r).run none [0] 0 none text <;> simp [bound]
  rw [search]
  constructor
  · intro n found
    obtain ⟨i, member, q, w, accepts, reads, rfl⟩ :=
      (Program.run_sound found).resolve_left (by simp)
    obtain rfl := List.mem_singleton.mp member
    exact ⟨q, w, accepts_layOut.mp accepts, reads, Nat.zero_add _⟩
  · intro unmatched q found
    exact (Program.run_complete unmatched).2 0 (List.mem_singleton_self 0) q
      (accepts_layOut.mpr found)

end ShiftReduce.Regex
