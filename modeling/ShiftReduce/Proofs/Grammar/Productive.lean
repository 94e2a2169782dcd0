import ShiftReduce.Proofs.Grammar.Augmentation
import ShiftReduce.Proofs.Grammar.Derivation

/-!
# Productive grammars

Augmentation adds one nonterminal, which derives what the start symbol derives, and changes nothing
else. So it keeps a grammar productive.
-/
namespace ShiftReduce.Grammar

variable {g h : Grammar} {s : Symbol} {name : String}

/-! ## What augmentation adds -/

theorem ensure_of_knows (aligned : g.Aligned) (known : g.knows name) (kind : Symbol.Kind) :
    (g.ensure name kind).2 = g := by
  obtain ⟨s, found⟩ := Option.isSome_iff_exists.mp known
  rw [ensure_of_known aligned found]

theorem ensureAll_of_knows (aligned : g.Aligned) {names : List String}
    (known : ∀ name ∈ names, g.knows name) : (g.ensureAll true names).2 = g := by
  induction names with
  | nil => rfl
  | cons name rest ih =>
    have same := ensure_of_knows aligned (known name List.mem_cons_self) .implicit
    have others := ih fun name member => known name (List.mem_cons_of_mem _ member)
    simp only [ensureAll, Bool.not_true, Bool.false_eq_true, and_false, if_false, same]
    -- nothing is left behind whether the other names are accepted or not
    split
    next after same' => rw [same'] at others; exact others
    next after same' => rw [same'] at others; exact others

theorem WellFormed.knows_iff (wf : g.WellFormed) : g.knows name ↔ ∃ s, g.Named s name := by
  rw [knows, Option.isSome_iff_exists]
  exact exists_congr fun s => wf.symbol?_iff

theorem WellFormed.entries_addNonterminal (wf : g.WellFormed) (unknown : g.knows name = false) :
    (g.addNonterminal name).2.entries = g.entries ++ [⟨name, .nonterminal⟩] := by
  -- the reserved name is known, so the new name is another one
  have proper : name ≠ endName := by
    rintro rfl
    rw [wf.knows_iff.mpr ⟨_, _, wf.ending⟩] at unknown
    cases unknown
  have absent : g.symbol? name = none := by simpa [knows] using unknown
  unfold Grammar.addNonterminal
  rw [if_neg proper, absent]
  dsimp only
  rw [ensure_of_unknown wf.aligned absent]
  exact entries_enlarged wf.aligned name .nonterminal

/-- A new name and known ones: appending a production adds one symbol. -/
theorem WellFormed.entries_append (wf : g.WellFormed) (unknown : g.knows name = false)
    {rhs : List String} (known : ∀ other ∈ rhs, g.knows other) (generated : Bool) :
    (g.append name rhs generated true).2.entries = g.entries ++ [⟨name, .nonterminal⟩] := by
  have added := wf.entries_addNonterminal unknown
  obtain ⟨keeps, -⟩ := wf.addNonterminal name
  have known : ∀ other ∈ rhs, (g.addNonterminal name).2.knows other := by
    intro other member
    obtain ⟨s, named⟩ := wf.knows_iff.mp (known other member)
    exact keeps.wellFormed.knows_iff.mpr ⟨s, keeps.grows.named named⟩
  have kept := ensureAll_of_knows keeps.wellFormed.aligned known
  unfold Grammar.append
  -- the names on the right add nothing, even if one of them is refused
  split
  next e h same =>
    rw [same] at added
    exact added
  next lhs h same =>
    rw [same] at added kept
    split
    next e k same' =>
      rw [same'] at kept
      have kept : k = h := kept
      exact kept.symm ▸ added
    next symbols k same' =>
      rw [same'] at kept
      have kept : k = h := kept
      exact kept.symm ▸ added

theorem WellFormed.entries_augment (wf : g.WellFormed) (unset : g.accept = none)
    (done : g.augment.1 = .ok ()) :
    ∃ name, g.augment.2.entries = g.entries ++ [⟨name, .nonterminal⟩] := by
  unfold Grammar.augment at done ⊢
  split at done
  next set => simp [isAugmented, unset] at set
  next fresh =>
    rw [if_neg fresh]
    split at done
    next => cases done
    next start chosen =>
      simp only
      split at done
      next derives =>
        rw [if_pos derives]
        have known : ∀ other ∈ [start, endName], g.knows other := by
          obtain ⟨s, found, -⟩ := (Option.any_eq_true _ _).mp derives
          have first : g.knows start := by rw [knows, found]; rfl
          have second : g.knows endName := wf.knows_iff.mpr ⟨_, _, wf.ending⟩
          simp [first, second]
        have entries := wf.entries_append (g.knows_primedName start) known true
        dsimp only at done ⊢
        split at done
        next => cases done
        next index h same =>
          rw [same] at entries
          exact ⟨_, entries⟩
      next => cases done

/-! ## Productive symbols -/

theorem Derives.append_right {α β : List Symbol} (derives : g.Derives α β) (δ : List Symbol) :
    g.Derives (α ++ δ) (β ++ δ) := by
  induction derives with
  | refl => exact .refl
  | tail _ step ih =>
    apply ih.tail
    cases step with
    | replace before after member =>
      simpa using Rewrites.replace before (after ++ δ) member

theorem Derives.mono {α β : List Symbol} (derives : g.Derives α β)
    (kept : ∀ p ∈ g.productions, p ∈ h.productions) : h.Derives α β := by
  induction derives with
  | refl => exact .refl
  | tail _ step ih =>
    apply ih.tail
    cases step with
    | replace before after member => exact .replace before after (kept _ member)

theorem isTerminal_of_entries (before : g.Aligned) (after : h.Aligned) {more : List SymbolEntry}
    (entries : h.entries = g.entries ++ more) (terminal : g.isTerminal s) : h.isTerminal s := by
  obtain ⟨name, kind, entry, ne⟩ := (isTerminal_iff before).mp terminal
  refine (isTerminal_iff after).mpr ⟨name, kind, ?_, ne⟩
  rw [ entry?, entries, List.getElem?_append_left (List.getElem?_eq_some_iff.mp entry).1]
  exact entry

/-- The symbol whose name was not known is the one that was added. -/
theorem WellFormed.index_of_added (wf : g.WellFormed) {added : SymbolEntry}
    (entries : h.entries = g.entries ++ [added]) (unknown : g.knows name = false)
    (named : h.Named s name) : s.index = g.entries.length := by
  obtain ⟨kind, entry⟩ := named
  have bound := (List.getElem?_eq_some_iff.mp entry).1
  rw [entries, List.length_append, List.length_singleton] at bound
  by_contra other
  -- any other symbol stands in `g`, with the same name
  have inside : s.index < g.entries.length := by omega
  rw [ entry?, entries, List.getElem?_append_left inside] at entry
  have known : g.knows name := wf.knows_iff.mpr ⟨s, kind, entry⟩
  rw [unknown] at known
  cases known

/-- Augmentation keeps a grammar productive. -/
theorem WellFormed.productive_augment (wf : g.WellFormed) (done : g.augment.1 = .ok ())
    (productive : ∀ s, g.isNonterminal s → g.Productive s) :
    ∀ s, g.augment.2.isNonterminal s → g.augment.2.Productive s := by
  obtain ⟨set, same⟩ | ⟨e, h, -, same⟩ | ⟨h, p, start, name, added⟩ := wf.augment_cases
  · rwa [same]
  · simp [same] at done
  obtain ⟨primed, entries⟩ := wf.entries_augment added.unset done
  have wf' := wf.augment
  rw [added.result] at entries wf' ⊢
  have kept : ∀ q ∈ g.productions, q ∈ (h.accepting p).productions := fun q member =>
    List.mem_append_left _ (added.keeps.productions ▸ member)
  -- what was productive in `g` still is
  have old (s : Symbol) (nonterminal : g.isNonterminal s) : (h.accepting p).Productive s := by
    obtain ⟨word, derives, terminals⟩ := productive s nonterminal
    exact ⟨word, derives.mono kept, fun c member =>
      isTerminal_of_entries wf.aligned wf'.aligned entries (terminals c member)⟩
  intro s isNonterminal
  obtain ⟨_, entry⟩ := (isNonterminal_iff wf'.aligned).mp isNonterminal
  rw [ entry?, entries, List.getElem?_append] at entry
  split at entry
  next => exact old s ((isNonterminal_iff wf.aligned).mpr ⟨_, entry⟩)
  next beyond =>
    -- the new symbol is the left-hand side of the accept production
    have new : s = p.lhs := by
      have place := wf.index_of_added entries added.unknown ⟨_, added.left⟩
      have last := (List.getElem?_eq_some_iff.mp entry).1
      rw [List.length_singleton] at last
      cases s
      cases lhs : p.lhs
      rw [lhs] at place
      congr 1
      dsimp only at *
      omega
    -- it derives what the start symbol derives, with the end of the input behind it
    obtain ⟨word, derives, terminals⟩ := old start added.nonterminal
    refine ⟨word ++ [.endOfInput], ?_, ?_⟩
    · have first : (h.accepting p).Rewrites [s] [start, .endOfInput] := by
        have member : p ∈ (h.accepting p).productions :=
          List.mem_append_right _ (List.mem_singleton.mpr rfl)
        simpa [added.rhs, new] using Rewrites.replace [] [] member
      exact Relation.ReflTransGen.head first (derives.append_right [.endOfInput])
    · intro c member
      rcases List.mem_append.mp member with inner | last
      · exact terminals c inner
      · rw [List.mem_singleton.mp last]
        exact wf'.isTerminal_endOfInput

theorem mem_nonterminals (nonterminal : g.isNonterminal s) : s ∈ g.nonterminals := by
  have known := List.mem_range.mpr (index_lt_of_isNonterminal nonterminal)
  exact List.mem_filter.mpr ⟨List.mem_map.mpr ⟨s.index, known, rfl⟩, nonterminal⟩

theorem chain_productive (s : Symbol) (nonterminal : chain.isNonterminal s) : chain.Productive s := by
  have only : chain.nonterminals = [⟨1⟩] := by decide +kernel
  obtain rfl := List.mem_singleton.mp (only ▸ mem_nonterminals nonterminal)
  exact ⟨[⟨3⟩], .single (.replace [] [] (show ⟨1, ⟨1⟩, "S", [⟨3⟩], ["b"], false⟩ ∈ _ by decide)),
    by decide⟩

end ShiftReduce.Grammar
