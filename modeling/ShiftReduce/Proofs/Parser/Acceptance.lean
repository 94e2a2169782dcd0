import ShiftReduce.Proofs.Grammar.Freshness
import ShiftReduce.Proofs.Parser.Safety
import ShiftReduce.Proofs.Tree.Splicing

/-!
# Acceptance of whole texts

As long as the left-hand side of the accept production is fresh, only the start state begins that
production. So a parser accepts with one tree on its stack, and this tree has all the tokens that
were shifted. Edits that mention the left-hand side after augmentation can break this.
-/
namespace ShiftReduce

/-! ## Where the accept production begins -/

section Beginning

variable {g : Grammar} {a : Analysis} {accept : Nat}

/-- Moving over a symbol does not lead to the beginning of the accept production: nothing calls for
it. -/
theorem ItemSet.place_ne_of_mem_goto (wf : g.WellFormed) (chosen : g.accept = some accept)
    (fresh : g.AcceptFresh) {items : ItemSet} {s : Symbol} :
    ∀ item ∈ items.goto g a s, item.place ≠ ⟨accept, 0⟩ := by
  apply ItemSet.closure_induction
  · intro item moved begins
    obtain ⟨before, -, -, rfl⟩ := ItemSet.mem_kernel.mp moved
    exact absurd (congrArg Place.dot begins) (Nat.succ_ne_zero _)
  · intro item _ added called begins
    obtain ⟨t, p, c, next, -, member, lhs, -, rfl⟩ := (Item.mem_expansions wf).mp called
    -- the item would wait for the left-hand side of the accept production
    have index : p.index = accept := congrArg Place.production begins
    have accepts : g.acceptProduction? = some p := by
      rw [Grammar.acceptProduction?, chosen, ← index]
      exact wf.production?_index member
    obtain ⟨q, found, symbol⟩ := Option.bind_eq_some_iff.mp next
    refine fresh p accepts q (Grammar.mem_of_production? found) ?_
    rw [lhs]
    exact List.mem_of_getElem? symbol

namespace Automaton

variable {m : Automaton}

/-- Only state 0 begins the accept production. -/
def BeginsOnce (m : Automaton) (accept : Nat) : Prop := ∀ n items, m.state? n = some items →
  ((∃ item ∈ items, item.place = ⟨accept, 0⟩) ↔ n = 0)

theorem Canonical.beginsOnce (canonical : m.Canonical g a accept) (wf : g.WellFormed)
    (chosen : g.accept = some accept) (fresh : g.AcceptFresh) : m.BeginsOnce accept := by
  intro n items found
  constructor
  · rintro ⟨item, member, begins⟩
    rcases canonical.origin items (List.mem_of_getElem? found) with rfl | ⟨before, s, rfl⟩
    · have bound := (List.getElem?_eq_some_iff.mp found).1
      exact (List.getElem?_inj bound canonical.distinct).mp (found.trans canonical.start.symm)
    · exact absurd begins (ItemSet.place_ne_of_mem_goto wf chosen fresh item member)
  · rintro rfl
    cases canonical.start.symm.trans found
    exact ⟨_, ItemSet.mem_closure_of_mem wf (List.mem_singleton.mpr rfl), rfl⟩

theorem BeginsOnce.merge (once : m.BeginsOnce accept) {items : ItemSet}
    (start : m.state? 0 = some items) : m.merge.BeginsOnce accept := by
  intro n united found
  have joins := joins_zero start
  constructor
  · rintro ⟨item, member, begins⟩
    obtain ⟨s, others, joins', found', member⟩ := (mem_merge found).mp member
    obtain rfl := (once s others found').mp ⟨item, member, begins⟩
    exact Option.some.inj (joins'.symm.trans joins)
  · rintro rfl
    obtain ⟨item, member, begins⟩ := (once 0 items start).mpr rfl
    exact ⟨item, (mem_merge found).mpr ⟨0, items, joins, start, member⟩, begins⟩

theorem beginsOnce_of_ofGrammar (wf : g.WellFormed) (chosen : g.accept = some accept)
    (fresh : g.AcceptFresh) {lalr : Bool} (done : ofGrammar g g.analysis lalr = .ok m) :
    m.BeginsOnce accept := by
  have canonical := canonical_spec wf (Begins.analysis_closed wf) chosen
  have once := canonical.beginsOnce wf chosen fresh
  rw [ofGrammar, chosen] at done
  cases done
  split
  · exact once.merge canonical.start
  · exact once

end Automaton

end Beginning

namespace Parser

/-! ## Accepting -/

/-- A parser accepts whole texts: with one tree on the stack, whatever token is ahead, and with all
the tokens that were shifted as the leaves of that tree, spliced or not. -/
structure AcceptsWhole (p : Parser) : Prop where
  alone : ∀ scanner c token, p.Reaches (.start scanner) c → p.action c.state token = .accept →
    ∃ entry, c.stack = [entry]
  whole : ∀ text budget tree c, p.run budget (.start (p.lexer.scan text)) = some (.accepted tree c) →
    ∃ last rest, last.isEnd ∧ (p.lexer.tokenization text).tokens = tree.leaves ++ last :: rest ∧
      c.counts.tokens = tree.leaves.length ∧ (p.finished tree).leaves = tree.leaves

variable {engine : Regex.Engine} {p : Parser}

theorem WellBuilt.acceptsWhole (built : p.WellBuilt) (fresh : p.grammar.AcceptFresh) :
    p.AcceptsWhole where
  alone scanner c token reaches decided := by
    have start : p.Supported [] (Configuration.start scanner).stack := .nil
    obtain ⟨γ, supported⟩ := start.reaches built reaches
    obtain ⟨s, entry, -, alone, -⟩ := supported.accepted built fresh decided
    exact ⟨entry, alone⟩
  whole text budget tree c ended := by
    have stands := stands_start p.lexer text
    obtain ⟨n, y, -, moves, -, ends, counts⟩ := built.moves_of_run stands ended
    cases ends with
    | @accepted entry below last rest _ decided =>
      obtain ⟨γ, supported⟩ := Supported.nil.moves built moves
      obtain ⟨s, _, -, ⟨⟩, -, -, isEnd⟩ := supported.accepted built fresh decided
      have kept : entry.tree.leaves ++ last :: rest = (p.lexer.tokenization text).tokens := by
        simpa [Situation.text, treesOf] using moves.text
      refine ⟨last, rest, isEnd, kept.symm, ?_, ?_⟩
      · have total : c.counts.tokens + (last :: rest).length =
            (p.lexer.tokenization text).tokens.length := by
          simpa [Configuration.start, Outcome.last] using counts
        rw [← kept, List.length_append] at total
        omega
      · unfold finished
        split <;> simp

/-- A parser of a grammar that is augmented already is built for that grammar. -/
theorem grammar_of_augmented {g : Grammar} {l : Lexer} {settings : Settings}
    (augmented : g.isAugmented) (done : ofGrammar engine g l settings = .ok p) : p.grammar = g := by
  rw [(grammar_of_ofGrammar done).2, Grammar.augment, if_pos augmented]

end Parser

/-! ## Grammars that are edited after augmentation -/

namespace Grammar

/-- The grammar `h` is entered through its accept production `p`. The left-hand side is that of no
other production, and occurs in no right-hand side, just as long as `rules` do not name it there.
In the second case every automaton begins the accept production once, and every parser accepts
whole texts. -/
structure EntersBy (h : Grammar) (p : Production) (rules : List (String × List String)) : Prop where
  accept : h.acceptProduction? = some p
  start : h.startSymbol? = some p.lhs
  alone : (∀ q ∈ h.productions, q.lhs = p.lhs → q = p) ↔ ∀ rule ∈ rules, rule.1 ≠ p.name
  unmentioned : (∀ q ∈ h.productions, p.lhs ∉ q.rhs) ↔ ∀ rule ∈ rules, p.name ∉ rule.2
  begins : (∀ rule ∈ rules, p.name ∉ rule.2) → ∀ lalr m,
    Automaton.ofGrammar h h.analysis lalr = .ok m → m.BeginsOnce p.index
  accepts : (∀ rule ∈ rules, p.name ∉ rule.2) → ∀ engine l settings q,
    Parser.ofGrammar engine h l settings = .ok q → q.AcceptsWhole

variable {g : Grammar}

theorem Built.entersBy (built : g.Built) (unset : g.accept = none) (done : g.augment.1 = .ok ())
    (later : List Edit) : ∃ p, g.augment.2.acceptProduction? = some p ∧
      (g.augment.2.run later).EntersBy p (g.augment.2.contributions later) := by
  have wf := built.wellFormed
  obtain ⟨p, accept, start, alone⟩ := wf.augment_alone unset done
  have unmentioned := wf.acceptFresh_augment unset done p accept
  obtain ⟨i, chosen, found⟩ := Option.bind_eq_some_iff.mp accept
  have member := mem_of_production? found
  have more := wf.augment.enlarges_run (by simp [chosen]) (by simp [start]) later
  obtain ⟨accept', start'⟩ := more.enters accept start
  have chosen' : (g.augment.2.run later).accept = some p.index := by
    rw [more.accept, chosen, wf.augment.indexed i p found]
  have fresh (unnamed : ∀ rule ∈ g.augment.2.contributions later, p.name ∉ rule.2) :
      (g.augment.2.run later).AcceptFresh := by
    intro q same
    cases accept'.symm.trans same
    exact (more.unmentioned_iff member unmentioned).mpr unnamed
  refine ⟨p, accept, accept', start', more.alone_iff member alone,
    more.unmentioned_iff member unmentioned, ?begins, ?accepts⟩
  case begins =>
    intro unnamed lalr m made
    exact Automaton.beginsOnce_of_ofGrammar more.wellFormed chosen' (fresh unnamed) made
  case accepts =>
    intro unnamed engine l settings q made
    have same := Parser.grammar_of_augmented (by simp [isAugmented, chosen']) made
    exact (Parser.wellBuilt_of_ofGrammar (built.augment.run later) made).acceptsWhole
      (same ▸ fresh unnamed)

/-- Augmented grammars under edits: whatever edits come before and after an augmentation that
succeeds, the accept production and the start symbol are those of the first such augmentation. The
left-hand side stays fresh just as long as no rule that is added later mentions it, and as long as
it does, parsers accept whole texts. -/
theorem entersBy_of_augment (before later : List Edit)
    (done : ((empty.run before).perform .augment).1 = .ok ()) :
    ∃ first rest g p, before ++ .augment :: later = first ++ .augment :: rest ∧
      (empty.run first).accept = none ∧ (empty.run first).perform .augment = (.ok (), g) ∧
      g.acceptProduction? = some p ∧
      (empty.run (before ++ .augment :: later)).EntersBy p (g.contributions rest) := by
  have built := Built.empty.run before
  have set : (empty.run (before ++ .augment :: later)).accept.isSome := by
    have chosen := built.wellFormed.isSome_accept_augment done
    rw [run_append, run_cons]
    exact (built.augment.accept_run chosen later).symm ▸ chosen
  obtain ⟨first, rest, same, unset, done'⟩ := Built.empty.exists_augment rfl set
  obtain ⟨p, accept, enters⟩ := (Built.empty.run first).entersBy unset done' rest
  refine ⟨first, rest, _, p, same, unset, Prod.ext done' rfl, accept, ?_⟩
  rw [same, run_append, run_cons]
  exact enters

/-- The edits that make and augment the grammar `S -> a`. -/
def single : List Edit := [.addAuthored "S" ["a"], .startFrom "S"]

/-- With `S -> b S` added after augmentation, a parser still accepts whole texts. -/
theorem entersBy_of_augment_widened :
    ((empty.run single).perform .augment).1 = .ok () ∧ ∃ q, Parser.ofGrammar .builtIn
      (empty.run (single ++ .augment :: [.addAuthored "S" ["b", "S"]])) .empty .standard = .ok q ∧
        q.AcceptsWhole := by
  have done : ((empty.run single).perform .augment).1 = .ok () := by decide +kernel
  obtain ⟨q, made, -⟩ := Parser.exists_of_check (Parser.ofGrammar .builtIn
    (empty.run (single ++ .augment :: [.addAuthored "S" ["b", "S"]])) .empty .standard)
    (fun _ => true) (by decide +kernel)
  obtain ⟨first, rest, g, p, same, -, augmented, accept, enters⟩ :=
    entersBy_of_augment single [.addAuthored "S" ["b", "S"]] done
  refine ⟨done, q, made, enters.accepts ?_ _ _ _ q made⟩
  -- there is one augmentation only, so what was added is known
  obtain ⟨rfl, rfl⟩ : first = single ∧ rest = [.addAuthored "S" ["b", "S"]] := by
    rcases first with _ | ⟨_, _ | ⟨_, _ | ⟨_, _ | ⟨_, first⟩⟩⟩⟩ <;> simp_all [single]
  have graph : g = ((empty.run single).perform .augment).2 := by rw [augmented]
  have named : p.name = "S'" := by
    have known : g.acceptProduction?.map (·.name) = some "S'" := by rw [graph]; decide +kernel
    simpa [accept] using known
  rw [graph, named]
  decide +kernel

/-- The grammar `S -> a` with `S -> b S'` and `S' -> c` added after augmentation. -/
def entangled : Grammar := empty.run (single ++ .augment ::
  [.addAuthored "S" ["b", "S'"], .addAuthored "S'" ["c"]])

/-- There the left-hand side of the accept production is not fresh: state 3 begins it too, and the
text `ba` is accepted with a tree of `a` alone, the token `b` being left on the stack. -/
theorem entangled_drops : ((empty.run single).perform .augment).1 = .ok () ∧
    (∃ p, entangled.acceptProduction? = some p ∧
      (∃ q ∈ entangled.productions, q.lhs = p.lhs ∧ q ≠ p) ∧
      ∃ q ∈ entangled.productions, p.lhs ∈ q.rhs) ∧
    ∃ q, Parser.ofGrammar .builtIn entangled .empty .standard = .ok q ∧
      (∃ items, q.automaton.state? 3 = some items ∧
        ∃ item ∈ items, entangled.accept = some item.place.production ∧ item.place.dot = 0) ∧
      ∃ tree c, q.runOver (q.lexer.scan "ba") = some (.accepted tree c) ∧
        c.counts.tokens = 2 ∧ tree.leaves.map (·.text) = ["a"] ∧ c.stack.length = 1 := by
  refine ⟨by decide +kernel, ?_, ?_⟩
  · have mentioned : entangled.acceptProduction?.any (fun p =>
        (∃ q ∈ entangled.productions, q.lhs = p.lhs ∧ q ≠ p) ∧
          ∃ q ∈ entangled.productions, p.lhs ∈ q.rhs) := by decide +kernel
    obtain ⟨p, accept, found⟩ := (Option.any_eq_true _ _).mp mentioned
    exact ⟨p, accept, by simpa using found⟩
  · obtain ⟨q, made, passed⟩ := Parser.exists_of_check
      (Parser.ofGrammar .builtIn entangled .empty .standard)
      (fun q => (q.automaton.state? 3).any (fun items => items.toList.any fun item =>
          entangled.accept = some item.place.production ∧ item.place.dot = 0) ∧
        (q.runOver (q.lexer.scan "ba")).any fun outcome =>
          outcome.tree?.any (·.leaves.map (·.text) = ["a"]) ∧
            outcome.last.counts.tokens = 2 ∧ outcome.last.stack.length = 1) (by decide +kernel)
    rw [decide_eq_true_eq] at passed
    obtain ⟨items, state, begins⟩ := (Option.any_eq_true _ _).mp passed.1
    obtain ⟨outcome, ended, drops⟩ := (Option.any_eq_true _ _).mp passed.2
    obtain ⟨accepted, shifted, stack⟩ := of_decide_eq_true drops
    obtain ⟨tree, given, leaves⟩ := (Option.any_eq_true _ _).mp accepted
    rw [outcome.eq_accepted given] at ended
    refine ⟨q, made, ⟨items, state, ?_⟩, tree, _, ended, shifted, of_decide_eq_true leaves, stack⟩
    obtain ⟨item, member, begins⟩ := List.any_eq_true.mp begins
    exact ⟨item, member, by simpa using begins⟩

end Grammar

end ShiftReduce
