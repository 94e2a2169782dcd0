import ShiftReduce.Automaton.Merging
import ShiftReduce.Proofs.Automaton.Paths
import ShiftReduce.Proofs.Grammar.Exactness
import ShiftReduce.Proofs.Grammar.Handles

/-!
# Viable prefixes and valid items

What a state of the canonical automaton is can be said by rightmost derivations. The words on its
paths are the prefixes of their forms that do not reach behind a handle, and a state holds the items
that such derivations make valid for the word that leads to it, with exactly their lookaheads.
-/
namespace ShiftReduce

namespace Grammar

/-- The word `γ` does not reach behind a handle: it begins some `before ++ front`, where a right-hand
side `front ++ back` comes behind `before`. -/
def ViablePrefix (handles : List Symbol → Production → List Symbol → Prop) (γ : List Symbol) : Prop :=
  ∃ before p after front back, handles before p after ∧ p.rhs = front ++ back ∧ γ <+: before ++ front

/-- The dot of the item is in a handle, with the word `γ` before it. Its lookahead is the first
terminal behind the handle, or the end of the input for the accept production. -/
def Valid (g : Grammar) (handles : List Symbol → Production → List Symbol → Prop) (γ : List Symbol)
    (item : Item) : Prop :=
  ∃ before p after front back x, handles before p after ∧ p.rhs = front ++ back ∧
    γ = before ++ front ∧ item = .of p.index front.length x ∧
      (after.head? = some x ∨ g.acceptProduction? = some p ∧ x = .endOfInput)

end Grammar

variable {g : Grammar} {a : Analysis} {γ : List Symbol} {item : Item}

/-! ## Valid items are reached -/

/-- Where a right-hand side splits, the dot can stand. -/
theorem Item.rest_split {n : Nat} {p : Production} {front back : List Symbol}
    (found : g.production? n = some p) (rhs : p.rhs = front ++ back) (x : Symbol) :
    (Item.of n front.length x).rest g = back := by
  simp [Item.rest, Item.production?, Item.of, found, rhs]

/-- Moving over the front of a right-hand side. -/
theorem Reached.read {n : Nat} {x : Symbol} (reached : Reached g a γ (.of n 0 x)) {p : Production}
    (found : g.production? n = some p) {front back : List Symbol} (rhs : p.rhs = front ++ back)
    (inner : .endOfInput ∉ front) : Reached g a (front.reverse ++ γ) (.of n front.length x) := by
  induction front using List.reverseRecOn generalizing back with
  | nil => exact reached
  | append_singleton front s ih =>
    rw [List.append_assoc] at rhs
    rw [List.mem_append, not_or] at inner
    have moved := (ih rhs inner.1).advance (Item.next?_of_rest (Item.rest_split found rhs x)).1
      fun same => inner.2 (by simp [same])
    rw [List.reverse_append, List.length_append]
    exact moved

section Derivations

variable {q : Production} (wf : g.WellFormed) (closed : a.Closed g) (fresh : g.AcceptFresh)
  (accepts : g.acceptProduction? = some q)

include wf closed fresh accepts

/-- In front of every nonterminal of a rightmost form an item waits for it, which allows for whatever
can begin the rest of the form. -/
theorem exists_awaiting {φ : List Symbol} (derives : g.DerivesRightmost q.rhs φ)
    {before after : List Symbol} {s c : Symbol} (form : φ = before ++ s :: after)
    (nonterminal : g.isNonterminal s) (begins : c ∈ a.beginnings after none) :
    ∃ item, Reached g a before.reverse item ∧ item.next? g = some s ∧
      c ∈ a.beginnings (item.beyond g) (some item.lookahead) := by
  induction derives generalizing before s after c with
  | refl =>
    obtain ⟨chosen, member, t, rhs, -⟩ := wf.acceptProduction?_spec accepts
    -- the only nonterminal is the goal
    obtain ⟨rfl, rfl, rfl⟩ : before = [] ∧ s = t ∧ after = [.endOfInput] := by
      rw [rhs] at form
      rcases Grammar.split_append (γ := [t]) (δ := [.endOfInput]) form with
        ⟨rest, first, rfl⟩ | ⟨rest, last, -⟩
      · obtain ⟨rfl, rfl, rfl⟩ := Grammar.split_singleton first
        exact ⟨rfl, rfl, rfl⟩
      · obtain ⟨-, same, -⟩ := Grammar.split_singleton last
        exact absurd same (wf.ne_endOfInput nonterminal)
    obtain ⟨next, beyond⟩ := Item.next?_of_rest ((Item.rest_of wf member .endOfInput).trans rhs)
    refine ⟨_, .start chosen, next, ?_⟩
    rw [beyond]
    exact Begins.mem_beginnings_some.mpr (Or.inl begins)
  | @tail φ ψ derives step ih =>
    subst form
    have whole : g.DerivesRightmost q.rhs (before ++ s :: after) := derives.tail step
    have derives : g.DerivesRightmost q.rhs φ := derives
    generalize word : before ++ s :: after = ψ at step
    cases step with
    | @replace front back p member terminals =>
      rcases Grammar.split_middle word.symm with ⟨rest, rfl, rfl⟩ | ⟨rest, rfl, -⟩ |
        ⟨left, right, rhs, rfl, rfl⟩
      · -- the rewriting is behind the symbol
        have begins := closed.beginnings_of_rewrites (.replace rest back member) begins
        exact ih (by simp) nonterminal begins
      · exact absurd (terminals s (by simp)) (Grammar.not_isTerminal_of_isNonterminal nonterminal)
      · -- the symbol comes with the right-hand side
        have lhs := wf.isNonterminal_lhs member
        have found := wf.production?_index member
        obtain ⟨inner, -⟩ := whole.around wf fresh accepts nonterminal
        obtain ⟨-, nonempty, -⟩ := derives.around wf fresh accepts lhs
        -- what begins the rest of the form comes from the right-hand side or from behind it
        obtain ⟨y, behind, allowed⟩ : ∃ y, y ∈ a.beginnings back none ∧
            c ∈ a.beginnings right (some y) := by
          rcases Begins.mem_beginnings_append.mp begins with inside | ⟨vanishes, later⟩
          · obtain ⟨y, rest, rfl⟩ := List.exists_cons_of_ne_nil nonempty
            have terminal := closed.terminal y (terminals y List.mem_cons_self)
            exact ⟨y, Begins.mem_beginnings_cons.mpr (Or.inl terminal),
              Begins.mem_beginnings_some.mpr (Or.inl inside)⟩
          · exact ⟨c, later, Begins.mem_beginnings_some.mpr (Or.inr ⟨vanishes, rfl⟩)⟩
        obtain ⟨item, reached, next, begins⟩ := ih rfl lhs behind
        have called : Item.of p.index 0 y ∈ item.expansions g a :=
          (Item.mem_expansions wf).mpr ⟨p.lhs, p, y, next, lhs, member, rfl, begins, rfl⟩
        have moved := (reached.expand called).read found rhs fun occurs =>
          inner (List.mem_append_right _ occurs)
        obtain ⟨next, beyond⟩ := Item.next?_of_rest (Item.rest_split found rhs y)
        exact ⟨_, by simpa using moved, next, by rw [beyond]; exact allowed⟩

/-- A valid item is reached by the word that it is valid for. -/
theorem reached_of_valid (inner : .endOfInput ∉ γ) (valid : g.Valid g.ByAccept γ item) :
    Reached g a γ.reverse item := by
  obtain ⟨before, p, after, front, back, x, ⟨_, accepts', handle⟩, rhs, rfl, rfl, ahead⟩ := valid
  cases accepts'.symm.trans accepts
  obtain ⟨chosen, memberQ, -⟩ := wf.acceptProduction?_spec accepts
  rw [List.mem_append, not_or] at inner
  rw [List.reverse_append]
  suffices called : p ∈ g.productions ∧ Reached g a before.reverse (.of p.index 0 x) from
    called.2.read (wf.production?_index called.1) rhs inner.2
  rcases ahead with first | ⟨same, rfl⟩
  · -- the handle's left-hand side is in a form, where some item waits for it
    obtain ⟨rest, rfl⟩ := List.head?_eq_some_iff.mp first
    obtain ⟨-, -, none⟩ | handle := handle
    · cases none
    have lhs := wf.isNonterminal_lhs handle.member
    have terminal := closed.terminal x (handle.terminals x List.mem_cons_self)
    obtain ⟨item, reached, next, begins⟩ := exists_awaiting wf closed fresh accepts handle.derives
      rfl lhs (Begins.mem_beginnings_cons.mpr (Or.inl terminal))
    exact ⟨handle.member, reached.expand
      ((Item.mem_expansions wf).mpr ⟨p.lhs, p, x, next, lhs, handle.member, rfl, begins, rfl⟩)⟩
  · cases same.symm.trans accepts
    obtain ⟨rfl, -⟩ := Grammar.ByAccept.alone wf fresh accepts ⟨q, accepts, handle⟩
    exact ⟨memberQ, .start chosen⟩

/-! ## Reached items are valid -/

/-- A reached item is valid for the word that leads to it. -/
theorem Reached.valid (sound : a.Sound g) (productive : ∀ s, g.isNonterminal s → g.Productive s)
    (reached : Reached g a γ item) : g.Valid g.ByAccept γ.reverse item := by
  induction reached with
  | start chosen =>
    obtain ⟨chosen', -⟩ := wf.acceptProduction?_spec accepts
    cases chosen'.symm.trans chosen
    exact ⟨[], q, [], [], q.rhs, .endOfInput, ⟨q, accepts, Or.inl ⟨rfl, rfl, rfl⟩⟩, rfl, rfl, rfl,
      Or.inr ⟨accepts, rfl⟩⟩
  | @advance γ item s _ next _ ih =>
    obtain ⟨before, p, after, front, back, x, handle, rhs, word, rfl, ahead⟩ := ih
    have found := wf.production?_index (handle.replaced wf accepts).1
    obtain rfl := (Item.rest_split found rhs x).symm.trans (Item.rest_of_next? next)
    exact ⟨before, p, after, front ++ [s], _, x, handle, rhs.trans (List.append_cons ..),
      by simp [word], by simp [Item.of, Item.advance], ahead⟩
  | @expand γ item added reached called ih =>
    obtain ⟨s, r, c, next, nonterminal, member, rfl, begins, rfl⟩ :=
      (Item.mem_expansions wf).mp called
    have terminal : g.isTerminal c := (reached.expand called).terminal wf closed
    obtain ⟨before, p, after, front, back, x, handle, rhs, word, rfl, ahead⟩ := ih
    obtain ⟨inP, terminals, derives⟩ := handle.replaced wf accepts
    obtain rfl := (Item.rest_split (wf.production?_index inP) rhs x).symm.trans
      (Item.rest_of_next? next)
    generalize (Item.of p.index front.length x).beyond g = β at begins rhs
    -- what is behind the nonterminal is rewritten first, to a word that `c` begins
    have known : ∀ t ∈ β, ∃ name, g.Named t name := fun t occurs =>
      wf.named_of_mem inP (by simp [rhs, occurs])
    obtain ⟨tail, later, inTail, first⟩ := sound.rightmost wf productive known terminal begins
    have later : g.DerivesRightmost (p.rhs ++ after) (front ++ r.lhs :: (tail ++ after)) := by
      simpa [rhs] using (later.append_terminals terminals).append_left (front ++ [r.lhs])
    have rewritten : g.DerivesRightmost q.rhs ((before ++ front) ++ r.lhs :: (tail ++ after)) := by
      rw [List.append_assoc]
      exact derives.trans (later.append_left before)
    have leads : (tail ++ after).head? = some c := by
      cases tail with
      | cons t tail => simpa using first
      | nil =>
        obtain rfl : x = c := Option.some.inj first
        rcases ahead with here | ⟨same, -⟩
        · exact here
        · -- behind the goal is the end of the input, which does not vanish
          cases same.symm.trans accepts
          obtain ⟨-, rfl⟩ := handle.alone wf fresh accepts
          exact absurd rfl (rewritten.around wf fresh accepts nonterminal).2.1
    have behind := List.forall_mem_append.mpr ⟨inTail, terminals⟩
    exact ⟨before ++ front, r, tail ++ after, [], r.rhs, c,
      ⟨q, accepts, Or.inr ⟨member, behind, rewritten⟩⟩, rfl, by simp [word], rfl, Or.inl leads⟩

end Derivations

/-! ## The characterisation -/

/-- Some item is valid for a viable prefix, or for a word that goes on from it. -/
theorem Grammar.ViablePrefix.exists_valid (wf : g.WellFormed) (fresh : g.AcceptFresh)
    (inner : .endOfInput ∉ γ) (viable : Grammar.ViablePrefix g.ByAccept γ) :
    ∃ δ item, γ <+: δ ∧ .endOfInput ∉ δ ∧ g.Valid g.ByAccept δ item := by
  obtain ⟨before, p, after, front, back, handle, rhs, leads⟩ := viable
  obtain ⟨x, quiet, ahead⟩ : ∃ x, .endOfInput ∉ before ∧
      (after.head? = some x ∨ g.acceptProduction? = some p ∧ x = .endOfInput) := by
    obtain ⟨_, accepts, ⟨rfl, rfl, rfl⟩ | handle⟩ := handle
    · exact ⟨_, by simp, Or.inr ⟨accepts, rfl⟩⟩
    · have lhs := wf.isNonterminal_lhs handle.member
      obtain ⟨quiet, nonempty, -⟩ := handle.derives.around wf fresh accepts lhs
      obtain ⟨x, rest, rfl⟩ := List.exists_cons_of_ne_nil nonempty
      exact ⟨x, quiet, Or.inl rfl⟩
  -- the prefix ends in front of the handle, or in it
  rcases List.prefix_or_prefix_of_prefix leads (List.prefix_append before front) with short | long
  · exact ⟨before, _, short, quiet, before, p, after, [], p.rhs, x, handle, rfl, by simp, rfl, ahead⟩
  · obtain ⟨start, rfl⟩ := long
    obtain ⟨rest, rfl⟩ := (List.prefix_append_right_inj before).mp leads
    exact ⟨_, _, List.prefix_rfl, inner, before, p, after, start, rest ++ back, x, handle,
      by rw [rhs, List.append_assoc], rfl, rfl, ahead⟩

/-- The paths of an automaton are the viable prefixes of some handles, and its states hold just the
items that are valid there. -/
structure Automaton.Characterised (m : Automaton) (g : Grammar)
    (handles : List Symbol → Production → List Symbol → Prop) : Prop where
  path : ∀ γ, .endOfInput ∉ γ → ((∃ s, m.Path γ.reverse s) ↔ Grammar.ViablePrefix handles γ)
  items : ∀ γ s, .endOfInput ∉ γ → m.Path γ.reverse s → ∃ items, m.state? s = some items ∧
    ∀ item, item ∈ items ↔ g.Valid handles γ item

theorem Automaton.Canonical.characterised {m : Automaton} {accept : Nat}
    (canonical : m.Canonical g a accept) (wf : g.WellFormed) (chosen : g.accept = some accept)
    (closed : a.Closed g) (sound : a.Sound g) (fresh : g.AcceptFresh)
    (productive : ∀ s, g.isNonterminal s → g.Productive s) : m.Characterised g g.ByAccept := by
  obtain ⟨q, _, found, -⟩ := wf.accepting accept chosen
  have accepts : g.acceptProduction? = some q := by simp [Grammar.acceptProduction?, chosen, found]
  have tracks := canonical.tracks wf chosen
  constructor
  case path =>
    intro γ inner
    constructor
    · rintro ⟨s, path⟩
      obtain ⟨items, found, item, member⟩ := tracks.inhabited chosen path
      have reached := canonical.reached path chosen found item member
      obtain ⟨before, p, after, front, back, x, handle, rhs, word, -⟩ :=
        reached.valid wf closed fresh accepts sound productive
      rw [List.reverse_reverse] at word
      exact ⟨before, p, after, front, back, handle, rhs, word ▸ List.prefix_rfl⟩
    · intro viable
      obtain ⟨δ, item, ⟨rest, rfl⟩, inner, valid⟩ := viable.exists_valid wf fresh inner
      obtain ⟨s, _, path, -⟩ := tracks.holds (reached_of_valid wf closed fresh accepts inner valid)
      rw [List.reverse_append] at path
      exact path.prefix
  case items =>
    intro γ s inner path
    obtain ⟨items, found, -⟩ := tracks.inhabited chosen path
    refine ⟨items, found, fun item => ⟨fun member => ?_, fun valid => ?_⟩⟩
    · have valid := (canonical.reached path chosen found item member).valid wf closed fresh accepts
        sound productive
      rwa [List.reverse_reverse] at valid
    · obtain ⟨t, others, path', found', member⟩ :=
        tracks.holds (reached_of_valid wf closed fresh accepts inner valid)
      cases path.unique path'
      cases found.symm.trans found'
      exact member

/-- Characterisation: in an augmented grammar where every nonterminal is productive and the
left-hand side of the accept production is fresh, the words on the paths of the canonical automaton
are the viable prefixes of the rightmost derivations that begin with the accept production, and each
state holds just the items that they make valid. If the accept production is alone, this goes for all
rightmost derivations from its left-hand side. -/
theorem Grammar.Built.canonical_characterised (built : g.Built) (set : g.accept.isSome)
    (productive : ∀ s, g.isNonterminal s → g.Productive s) (fresh : g.AcceptFresh) :
    ∃ m, Automaton.ofGrammar g g.analysis false = .ok m ∧ m.Characterised g g.ByAccept ∧
      (g.AcceptAlone → m.Characterised g g.FromStart) := by
  have wf := built.wellFormed
  have closed := Begins.analysis_closed wf
  obtain ⟨accept, chosen⟩ := Option.isSome_iff_exists.mp set
  have canonical := Automaton.canonical_spec wf closed chosen
  have byAccept := canonical.characterised wf chosen closed (Begins.analysis_sound g) fresh productive
  refine ⟨_, by simp only [Automaton.ofGrammar, chosen]; rfl, byAccept, fun alone => ?_⟩
  have same : g.FromStart = g.ByAccept := by
    funext before p after
    exact propext (Grammar.fromStart_iff_byAccept wf alone)
  rw [same]
  exact byAccept

/-- Augmented, the grammar `S -> a S | b` has one production for its accept symbol, so that all its
rightmost derivations count. -/
theorem Grammar.chain_canonical_characterised : ∃ m,
    Automaton.ofGrammar chain.augment.2 chain.augment.2.analysis false = .ok m ∧
      m.Characterised chain.augment.2 chain.augment.2.FromStart := by
  have augmented : chain.augment.1 = .ok () := by decide +kernel
  have fresh := chain_built.wellFormed.acceptFresh_augment rfl augmented
  obtain ⟨m, done, -, all⟩ := chain_built.augment.canonical_characterised (by decide +kernel)
    (chain_built.wellFormed.productive_augment augmented chain_productive) fresh
  refine ⟨m, done, all fun q accepts => ?_⟩
  have single : chain.augment.2.acceptProduction?.all fun q =>
      ∀ p ∈ chain.augment.2.productions, p.lhs = q.lhs → p = q := by decide +kernel
  simpa [accepts] using single

/-- The grammar `S -> x`, augmented, with `S' -> S b` added afterwards. -/
def Grammar.forked : Grammar :=
  ((((empty.addAuthored "S" ["x"]).2.startFrom "S").2.augment).2.addAuthored "S'" ["S", "b"]).2

/-- There the accept production is not alone. The form `S b` derives from the accept symbol, so that
`S -> . x` is valid with lookahead `b` for the empty word, but state 0 does not hold it. -/
theorem Grammar.forked_not_characterised : forked.Built ∧ forked.accept.isSome ∧
    (∀ s, forked.isNonterminal s → forked.Productive s) ∧ forked.AcceptFresh ∧
    ∃ m, Automaton.ofGrammar forked forked.analysis false = .ok m ∧
      ¬ m.Characterised forked forked.FromStart := by
  have first : (⟨0, ⟨1⟩, "S", [⟨2⟩], ["x"], false⟩ : Production) ∈ forked.productions := by
    decide +kernel
  have other : (⟨2, ⟨3⟩, "S'", [⟨1⟩, ⟨4⟩], ["S", "b"], false⟩ : Production) ∈ forked.productions := by
    decide +kernel
  have form : forked.DerivesRightmost [⟨3⟩] [⟨1⟩, ⟨4⟩] := .single (.replace [] other (by simp))
  refine ⟨.addAuthored _ _ (.augment (.startFrom _ (.addAuthored _ _ .empty))), by decide +kernel,
    fun s nonterminal => ?productive, fun q accepts => ?fresh, ?automaton⟩
  case productive =>
    have only : forked.nonterminals = [⟨1⟩, ⟨3⟩] := by decide +kernel
    have short : forked.Derives [⟨1⟩] [⟨2⟩] := .single (.replace [] [] first)
    rcases List.mem_pair.mp (only ▸ mem_nonterminals nonterminal) with rfl | rfl
    · exact ⟨_, short, by decide +kernel⟩
    · exact ⟨[⟨2⟩, ⟨4⟩], .head (.replace [] [] other) (short.append_right [⟨4⟩]), by decide +kernel⟩
  case fresh =>
    have absent : forked.acceptProduction?.all fun q => ∀ p ∈ forked.productions, q.lhs ∉ p.rhs := by
      decide +kernel
    simpa [accepts] using absent
  case automaton =>
    have accepts : forked.acceptProduction? =
        some ⟨1, ⟨3⟩, "S'", [⟨1⟩, .endOfInput], ["S", "EOF"], true⟩ := by decide +kernel
    have terminal : forked.isTerminal ⟨4⟩ := by decide +kernel
    have valid : forked.Valid forked.FromStart [] (.of 0 0 ⟨4⟩) :=
      ⟨[], _, [⟨4⟩], [], [⟨2⟩], ⟨4⟩, ⟨_, accepts, first, by simpa using terminal, form⟩, rfl, rfl, rfl,
        Or.inl rfl⟩
    have absent : ((Automaton.canonical forked forked.analysis 1).state? 0).all fun items =>
        !items.contains (.of 0 0 ⟨4⟩) := by decide +kernel
    refine ⟨_, rfl, fun all => ?_⟩
    obtain ⟨items, found, exact⟩ := all.items [] 0 (by simp) .start
    have found : (Automaton.canonical forked forked.analysis 1).state? 0 = some items := found
    have outside : .of 0 0 ⟨4⟩ ∉ items := by simpa [found] using absent
    exact outside ((exact _).mpr valid)

end ShiftReduce
