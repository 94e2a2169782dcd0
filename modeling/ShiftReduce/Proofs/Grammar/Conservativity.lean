import ShiftReduce.Proofs.Grammar.Productive

/-!
# Augmentation is conservative

The one production that augmentation adds belongs to a new symbol. So the symbols there were have the
trees they had.
-/
namespace ShiftReduce.Grammar

variable {g : Grammar} {s : Symbol} {t : Tree}

/-- Known symbols stay what they are, and no known symbol has the added production. -/
theorem WellFormed.augment_adds (wf : g.WellFormed) (unset : g.accept = none)
    (done : g.augment.1 = .ok ()) :
    (∀ s name, g.Named s name → entry? g.augment.2 s = g.entry? s) ∧
    ∃ p, g.augment.2.productions = g.productions ++ [p] ∧ ∀ name, ¬ g.Named p.lhs name := by
  constructor
  · intro s name named
    obtain ⟨added, entries⟩ := wf.entries_augment unset done
    have bound := length_entries wf.aligned ▸ named.index_lt
    rw [ entry?, entries, List.getElem?_append_left bound, entry?]
  · obtain ⟨h, p, s, start, added⟩ := wf.augments unset done
    rw [added.result]
    refine ⟨p, congrArg (· ++ [p]) added.keeps.productions, fun name named => ?_⟩
    exact added.keeps.ne_of_unknown wf added.left added.unknown named rfl

theorem WellFormed.derivation_augment_iff (wf : g.WellFormed) (unset : g.accept = none)
    (done : g.augment.1 = .ok ()) (known : ∃ name, g.Named s name) :
    g.augment.2.Derivation s t ↔ g.Derivation s t := by
  obtain ⟨entries, q, productions, new⟩ := wf.augment_adds unset done
  have kinds {s : Symbol} (known : ∃ name, g.Named s name) :
      g.augment.2.isTerminal s = g.isTerminal s ∧ g.augment.2.name s = g.name s := by
    obtain ⟨name, kind, entry⟩ := known
    have after := entries s name ⟨kind, entry⟩ ▸ entry
    have named : g.augment.2.Named s name := ⟨kind, after⟩
    rw [isTerminal, isTerminal, kind?_of_entry entry, kind?_of_entry after, named.name_eq,
      Named.name_eq ⟨kind, entry⟩]
    exact ⟨rfl, rfl⟩
  constructor
  · intro d
    revert known
    refine d.induct ?leaf ?node
    case leaf =>
      intro s token terminal named known
      obtain ⟨terminals, names⟩ := kinds known
      exact .leaf (terminals ▸ terminal) (names ▸ named)
    case node =>
      intro p cs member _ each known
      rw [productions] at member
      rcases List.mem_append.mp member with old | added
      · refine .node old ?_
        obtain ⟨lengths, each⟩ := List.forall₂_iff_get.mp each
        exact List.forall₂_iff_get.mpr ⟨lengths, fun i inside inside' =>
          each i inside inside' (wf.named_of_mem old (List.getElem_mem inside))⟩
      · obtain ⟨name, named⟩ := known
        exact absurd (List.mem_singleton.mp added ▸ named) (new name)
  · intro d
    refine d.induct ?leaf' ?node'
    case leaf' =>
      intro s token terminal named
      obtain ⟨terminals, names⟩ := kinds ⟨_, wf.named_of_isTerminal terminal⟩
      exact .leaf (terminals ▸ terminal) (names ▸ named)
    case node' =>
      intro p cs member _ each
      exact .node (productions ▸ List.mem_append_left _ member) each

end ShiftReduce.Grammar
