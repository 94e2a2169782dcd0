import ShiftReduce.Proofs.Regex.Lexemes
import ShiftReduce.Proofs.Regex.Meaning

/-!
# Assembling lexemes

Lexemes that begin and end in the same group add pieces to it. Which pieces these are depends on the
flags of the group alone, and what a group matches is told by its pieces. So the expression that a
text describes can be told from the pieces that its lexemes add.
-/
namespace ShiftReduce.Regex

/-- Put pieces, last first, into the current group. -/
def Assembly.push (a : Assembly) (pieces : List Piece) : Assembly :=
  a.withCurrent { a.current with pieces := pieces ++ a.current.pieces }

/-- Lexemes add some pieces to every group that has the flags, or are refused in all of them. -/
def Feeds (ls : List Lexeme) (flags : Flags) (result : Except SyntaxError (List Piece)) : Prop :=
  ∀ a : Assembly, a.current.flags = flags → ls.foldlM Assembly.feed a = result.map a.push

/-- Pieces, last first, are the parts of words. -/
structure SpelledBy (pieces : List Piece) (L : Language Char) : Prop where
  decided : ∀ piece ∈ pieces, piece.regex.regex.isDecided
  spells : SpellInOrder (pieces.reverse.map fun piece => piece.regex.regex) L

variable {ls ks : List Lexeme} {flags : Flags} {pieces more : List Piece} {L K : Language Char}
  {l : Lexeme} {g : Group}

/-! ## Pieces -/

theorem Feeds.nil : Feeds [] flags (.ok []) := fun _ _ => rfl

theorem Feeds.single {piece : Piece}
    (adds : ∀ a : Assembly, a.current.flags = flags → a.feed l = .ok (a.push [piece])) :
    Feeds [l] flags (.ok [piece]) := by
  intro a same
  rw [List.foldlM_cons, adds a same]
  rfl

theorem Feeds.append {result : Except SyntaxError (List Piece)}
    (first : Feeds ls flags (.ok pieces)) (second : Feeds ks flags result) :
    Feeds (ls ++ ks) flags (result.map (· ++ pieces)) := by
  intro a same
  rw [List.foldlM_append, first a same]
  have later := second (a.push pieces) same
  simp only [Except.map, bind, Except.bind] at later ⊢
  rw [later]
  cases result with
  | error e => rfl
  | ok more => simp [Assembly.push, Assembly.withCurrent]

theorem Feeds.append_error {e : SyntaxError} (first : Feeds ls flags (.error e)) (ks : List Lexeme) :
    Feeds (ls ++ ks) flags (.error e) := by
  intro a same
  rw [List.foldlM_append, first a same]
  rfl

theorem SpelledBy.nil : SpelledBy [] 1 := ⟨by simp, SpellInOrder.nil⟩

theorem SpelledBy.single {piece : Piece} (decided : piece.regex.regex.isDecided)
    (spells : Spells piece.regex.regex L) : SpelledBy [piece] L :=
  ⟨by simpa using decided, spellInOrder_singleton.mpr spells⟩

theorem SpelledBy.append (first : SpelledBy pieces L) (second : SpelledBy more K) :
    SpelledBy (more ++ pieces) (L * K) where
  decided piece member :=
    (List.mem_append.mp member).elim (second.decided piece) (first.decided piece)
  spells := by
    rw [List.reverse_append, List.map_append]
    exact first.spells.append second.spells

/-! ## Groups -/

/-- A group of one branch is its pieces in order. -/
theorem inside_eq_inOrder (alone : g.branches = [])
    (decided : ∀ piece ∈ g.pieces, piece.regex.regex.isDecided) :
    g.inside.regex = inOrder (g.pieces.reverse.map fun piece => piece.regex.regex) ∧
      g.inside.regex.isDecided := by
  have parts : ∀ r ∈ g.pieces.reverse.map fun piece => piece.regex.regex, r.isDecided := by
    intro r member
    obtain ⟨piece, known, rfl⟩ := List.mem_map.mp member
    exact decided piece (List.mem_reverse.mp known)
  have decided := isDecided_inOrder parts
  have branch :
      g.branch.regex = inOrder (g.pieces.reverse.map fun piece => piece.regex.regex) := by
    rw [Group.branch, NestedRegex.join, List.map_map]
    rfl
  have inside : g.inside.regex = g.branch.regex := by
    rw [← branch] at decided
    rw [Group.inside, NestedRegex.join, alone]
    exact anyOf_singleton decided
  rw [inside, branch]
  exact ⟨rfl, decided⟩

/-- It matches what its pieces spell. -/
theorem inside_spells (alone : g.branches = []) (spelled : SpelledBy g.pieces L) :
    g.inside.regex.isDecided ∧ Spells g.inside.regex L := by
  obtain ⟨inside, decided⟩ := inside_eq_inOrder alone spelled.decided
  refine ⟨decided, ?_⟩
  rw [inside]
  exact spells_inOrder.mpr spelled.spells

/-- A group that has just been opened, with some pieces in it. -/
def Group.holding (flags : Flags) (pieces : List Piece) : Group :=
  { Group.fresh none flags with pieces }

/-- Lexemes between parentheses add the group as one piece. -/
theorem Feeds.group {change : FlagChange} {result : Except SyntaxError (List Piece)}
    (feeds : Feeds ls (flags.changed change) result) :
    Feeds (.open (.plain change) :: ls ++ [.close]) flags
      ((result.map fun pieces => (Group.holding (flags.changed change) pieces).closed).map
        fun r => [.whole r]) := by
  rintro a rfl
  have opened : a.feed (.open (.plain change)) =
      .ok ⟨Group.fresh none (a.current.flags.changed change), a.current :: a.outer, a.count⟩ := rfl
  have inner := feeds
    ⟨Group.fresh none (a.current.flags.changed change), a.current :: a.outer, a.count⟩ rfl
  rw [List.cons_append, List.foldlM_cons, opened]
  simp only [bind, Except.bind, List.foldlM_append] at inner ⊢
  rw [inner]
  cases result with
  | error e => rfl
  | ok pieces =>
    -- the flags of the group are gone with it, and what is around it is as it was
    simp only [Except.map, Assembly.push, Assembly.withCurrent, Group.fresh, List.append_nil]
    rfl

/-- A group matches what is spelled in it. -/
theorem SpelledBy.inside (spelled : SpelledBy pieces L) (flags : Flags) :
    (Group.holding flags pieces).inside.regex.isDecided ∧
      Spells (Group.holding flags pieces).inside.regex L :=
  inside_spells (g := Group.holding flags pieces) rfl spelled

theorem SpelledBy.closed (spelled : SpelledBy pieces L) (flags : Flags) :
    (Group.holding flags pieces).closed.regex.isDecided ∧
      Spells (Group.holding flags pieces).closed.regex L :=
  spelled.inside flags

/-- A piece is repeated, unless it is nested too deeply. -/
theorem Feeds.repeated {result : Except SyntaxError NestedRegex}
    (feeds : Feeds ls flags (result.map fun r => [.whole r])) (min : Nat) (max : Option Nat) :
    Feeds (ls ++ [.repetition min max]) flags (result.bind fun r =>
      if r.depth < depthLimit then .ok [.counted r min max flags.swapLazy]
      else .error .tooDeep) := by
  rintro a rfl
  have given := feeds a rfl
  simp only [List.foldlM_append, bind, Except.bind] at given ⊢
  rw [given]
  cases result with
  | error e => rfl
  | ok r =>
    by_cases deep : r.depth < depthLimit <;>
      simp [Except.map, Except.bind, Assembly.feed, Assembly.push, Assembly.withCurrent,
        Group.repeatLast, Piece.regex, deep, bind, pure, Except.pure]

/-! ## Whole expressions -/

/-- The expression that a text is the written form of, however large it is. -/
def Describes (source : List Char) (r : NestedRegex) : Prop :=
  ∃ ls a, lexemes source = .ok ls ∧ (groupNames ls).Nodup ∧
    ls.foldlM Assembly.feed .start = .ok a ∧ a.outer = [] ∧ a.current.inside = r

variable {source : List Char} {r : NestedRegex}

/-- What is described is accepted unless it is nested too deeply. -/
theorem Describes.parse_eq (describes : Describes source r) : parse source =
    if depthLimit < r.depth then .error .tooDeep else .ok r.regex := by
  obtain ⟨ls, a, cut, distinct, fed, ended, rfl⟩ := describes
  rw [parse, cut]
  change ofLexemes ls = _
  rw [ofLexemes, if_pos distinct, fed]
  change a.finish = _
  rw [Assembly.finish, ended]

/-- What is accepted is described. -/
theorem exists_describes {r : Regex} (accepted : parse source = .ok r) :
    ∃ depth, Describes source ⟨r, depth⟩ := by
  unfold parse at accepted
  cases cut : lexemes source with
  | error e =>
    rw [cut] at accepted
    cases accepted
  | ok ls =>
    rw [cut] at accepted
    change ofLexemes ls = _ at accepted
    unfold ofLexemes at accepted
    split at accepted
    next distinct =>
      cases fed : ls.foldlM Assembly.feed .start with
      | error e =>
        rw [fed] at accepted
        cases accepted
      | ok a =>
        rw [fed] at accepted
        change a.finish = _ at accepted
        unfold Assembly.finish at accepted
        split at accepted
        next ended =>
          refine ⟨a.current.inside.depth, ls, a, cut, distinct, fed, ended, ?_⟩
          dsimp only at accepted
          split_ifs at accepted
          cases accepted
          rfl
        next => cases accepted
    next => cases accepted

theorem groupNames_append (ls ks : List Lexeme) :
    groupNames (ls ++ ks) = groupNames ls ++ groupNames ks := List.filterMap_append

/-- A text describes what the pieces that its lexemes add make up. -/
theorem describes_iff {result : Except SyntaxError (List Piece)} (cuts : CutsInto source ls)
    (feeds : Feeds ls .plain result) (distinct : (groupNames ls).Nodup) :
    Describes source r ↔
      ∃ pieces, result = .ok pieces ∧ (Group.holding .plain pieces).inside = r := by
  have fed := feeds .start rfl
  have start (pieces : List Piece) :
      (Assembly.start.push pieces).current = Group.holding .plain pieces := by
    simp [Assembly.start, Assembly.push, Assembly.withCurrent, Group.holding, Group.fresh]
  constructor
  · rintro ⟨ks, a, cut, -, fed', -, inside⟩
    obtain rfl : ls = ks := Except.ok.inj (cuts.lexemes_eq.symm.trans cut)
    cases result with
    | error e => cases fed.symm.trans fed'
    | ok pieces =>
      obtain rfl : Assembly.start.push pieces = a := Except.ok.inj (fed.symm.trans fed')
      exact ⟨pieces, rfl, start pieces ▸ inside⟩
  · rintro ⟨pieces, rfl, inside⟩
    exact ⟨ls, _, cuts.lexemes_eq, distinct, fed, rfl, (start pieces).symm ▸ inside⟩

end ShiftReduce.Regex
