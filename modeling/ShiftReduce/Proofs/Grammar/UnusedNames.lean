import ShiftReduce.Proofs.Grammar.Kinds

/-!
# Names that are not in use

Names are made up by putting digits or apostrophes behind a name, as few as will do. There are only
as many names in use as there are symbols, so the search for an unused one ends. Main statement: it
ends with the first unused name, and augmentation, which makes up a name for its production, is
refused for no name at all.
-/
namespace ShiftReduce.Grammar

variable {g h : Grammar} {base start : String} {n : Nat}

/-! ## Numbers -/

theorem numbered_ne (base : String) (n : Nat) : numbered base n ≠ base := by
  rw [numbered, ne_eq, String.append_eq_left_iff]
  exact Nat.repr_ne_empty

theorem exists_unusedName (known : g.knows base) : ∃ n, g.unusedName base = numbered base n ∧
    IsLeast {n | 1 ≤ n ∧ g.knows (numbered base n) = false} n := by
  rw [unusedName, if_pos known]
  exact g.exists_firstFree (numbered_injective base) base

/-- The candidates before the first unused one are in use. -/
theorem knows_of_lt_isLeast {candidate : Nat → String}
    (least : IsLeast {n | 1 ≤ n ∧ g.knows (candidate n) = false} n) {m : Nat} (positive : 1 ≤ m)
    (less : m < n) : g.knows (candidate m) := by
  by_contra unused
  exact absurd (least.2 ⟨positive, by simpa using unused⟩) (Nat.not_le.mpr less)

/-- The number of the first unused name is not more than there are symbols. -/
theorem WellFormed.le_numSymbols_of_isLeast (wf : g.WellFormed) (known : g.knows base)
    (least : IsLeast {n | 1 ≤ n ∧ g.knows (numbered base n) = false} n) : n ≤ g.numSymbols := by
  -- the name itself and the numbered ones before the first unused one are `n` names in use
  let names : List String := base :: (List.range (n - 1)).map fun i => numbered base (i + 1)
  have nodup : names.Nodup := by
    refine List.nodup_cons.mpr ⟨?_, List.nodup_range.map fun i j same => ?_⟩
    · intro member
      obtain ⟨i, -, same⟩ := List.mem_map.mp member
      exact numbered_ne base (i + 1) same
    · simpa using numbered_injective base same
  have inUse : ∀ name ∈ names, g.knows name := by
    refine List.forall_mem_cons.mpr ⟨known, List.forall_mem_map.mpr fun i below => ?_⟩
    have below := List.mem_range.mp below
    exact knows_of_lt_isLeast least (Nat.succ_pos i) (by omega)
  have length : names.length = n - 1 + 1 := by simp [names]
  have bound := length_le_names nodup inUse
  have kinds := wf.aligned.kinds
  unfold numSymbols
  omega

/-! ## Apostrophes -/

/-- A production whose left-hand side is unused may be added, whatever is on its right. -/
theorem WellFormed.isOk_append_primedName (wf : g.WellFormed) (start : String) (rhs : List String) :
    (g.append (g.primedName start) rhs true true).1.isOk := by
  have unused : g.symbol? (g.primedName start) = none := by
    simpa [knows] using g.knows_primedName start
  exact (wf.isOk_append _ rhs true true).mpr ⟨not_marks_of_unknown unused, Or.inl rfl⟩

/-- Augmentation is refused only where there is no start symbol to augment, and leaves everything as
it is then. -/
theorem WellFormed.augment_rejected (wf : g.WellFormed) {e : Fault}
    (rejected : g.augment = (.error e, h)) :
    h = g ∧ (e = .missingStart ∨ ∃ start, e = .undefinedStart start) := by
  unfold Grammar.augment at rejected
  split at rejected
  next => cases rejected
  next =>
    split at rejected
    next =>
      cases rejected
      exact ⟨rfl, Or.inl rfl⟩
    next start chosen =>
      split at rejected
      next =>
        have accepted := wf.isOk_append_primedName start [start, endName]
        dsimp only at rejected
        split at rejected
        next e' k refused => simp [refused, Except.isOk, Except.toBool] at accepted
        next => cases rejected
      next =>
        cases rejected
        exact ⟨rfl, Or.inr ⟨start, rfl⟩⟩

theorem Augments.name_eq {p : Production} {s : Symbol} (added : g.Augments h p s start) :
    p.name = g.primedName start := by
  have result := added.result
  unfold Grammar.augment at result
  rw [if_neg (by simp [isAugmented, added.unset]), added.chosen] at result
  dsimp only at result
  split at result
  next =>
    split at result
    next => cases result
    next =>
      -- the new start name is that of the production
      have chosen : some (g.primedName start) = some p.name :=
        congrArg (fun r : Edited Unit => r.2.start) result
      exact (Option.some.inj chosen).symm
  next => cases result

/-- A second augmentation has nothing left to do. -/
theorem WellFormed.augment_augment (wf : g.WellFormed) : g.augment.2.augment = g.augment := by
  obtain ⟨set, same⟩ | ⟨e, h, -, same⟩ | ⟨h, p, s, start, added⟩ := wf.augment_cases
  · rw [same, same]
  · obtain ⟨rfl, -⟩ := wf.augment_rejected same
    rw [same, same]
  · rw [added.result]
    exact augment_of_isAugmented rfl

/-- Names made up: an unused name is the name asked for, or that name with the least positive number
behind it that makes it unused, and this is not more than there are symbols. A production that
augmentation adds is named by the start name and the least positive number of apostrophes that makes
it unused. So augmentation is refused for no name, and a second one changes nothing. -/
theorem Built.names_fresh (built : g.Built) (base : String) :
    g.knows (g.unusedName base) = false ∧
    (g.knows base = false → g.unusedName base = base) ∧
    (g.knows base → ∃ n ≤ g.numSymbols, g.unusedName base = base ++ toString n ∧
      IsLeast {n : Nat | 1 ≤ n ∧ g.knows (base ++ toString n) = false} n) ∧
    (∀ p ∈ g.augment.2.productions, p ∉ g.productions → ∃ start n, g.start = some start ∧
      p.name = start ++ String.ofList (List.replicate n '\'') ∧
      IsLeast {n | 1 ≤ n ∧ g.knows (start ++ String.ofList (List.replicate n '\'')) = false} n) ∧
    (∀ name, g.augment.1 ≠ .error (.nameConflict name) ∧
      g.augment.1 ≠ .error (.reservedName name)) ∧
    g.augment.2.augment = g.augment := by
  have wf := built.wellFormed
  refine ⟨g.knows_unusedName base, fun unknown => ?_, fun known => ?_, ?added, ?refused,
    wf.augment_augment⟩
  · rw [unusedName, if_neg (by simp [unknown])]
  · obtain ⟨n, same, least⟩ := exists_unusedName known
    exact ⟨n, wf.le_numSymbols_of_isLeast known least, same, least⟩
  case added =>
    intro p member new
    obtain ⟨-, same⟩ | ⟨e, h, keeps, same⟩ | ⟨h, q, s, start, added⟩ := wf.augment_cases
    · rw [same] at member
      exact absurd member new
    · rw [same] at member
      exact absurd (keeps.productions ▸ member) new
    · -- of the productions only the accept production is new
      rw [added.result] at member
      rcases List.mem_append.mp member with old | last
      · exact absurd (added.keeps.productions ▸ old) new
      · obtain rfl := List.mem_singleton.mp last
        obtain ⟨n, same, least⟩ := g.exists_firstFree (primed_injective start) start
        exact ⟨start, n, added.chosen, added.name_eq.trans same, least⟩
  case refused =>
    have causes {e : Fault} (failed : g.augment.1 = .error e) :
        e = .missingStart ∨ ∃ start, e = .undefinedStart start :=
      (wf.augment_rejected (Prod.ext failed rfl)).2
    intro name
    constructor
    · intro failed
      obtain same | ⟨start, same⟩ := causes failed <;> cases same
    · intro failed
      obtain same | ⟨start, same⟩ := causes failed <;> cases same

/-- A grammar in which the first names that come to mind are taken. -/
def crowded : Grammar := ((empty.addAuthored "S" ["S'", "S1"]).2.startFrom "S").2

theorem crowded_built : crowded.Built := .startFrom _ (.addAuthored _ _ .empty)

/-- There `S2` and `S''` are the first unused names. -/
theorem crowded_names_fresh : crowded.Built ∧ crowded.knows "S" ∧ crowded.unusedName "S" = "S2" ∧
    (∃ n ≤ crowded.numSymbols, "S2" = "S" ++ toString n ∧
      IsLeast {n : Nat | 1 ≤ n ∧ crowded.knows ("S" ++ toString n) = false} n) ∧
    ∃ p ∈ crowded.augment.2.productions, p ∉ crowded.productions ∧ p.name = "S''" ∧
      ∃ n, "S''" = "S" ++ String.ofList (List.replicate n '\'') ∧
        IsLeast {n | 1 ≤ n ∧ crowded.knows ("S" ++ String.ofList (List.replicate n '\'')) = false} n := by
  have known : crowded.knows "S" := by decide +kernel
  have unused : crowded.unusedName "S" = "S2" := by decide +kernel
  obtain ⟨-, -, numbers, names, -⟩ := crowded_built.names_fresh "S"
  have member : (⟨1, ⟨4⟩, "S''", [⟨1⟩, ⟨0⟩], ["S", endName], true⟩ : Production) ∈
      crowded.augment.2.productions := by decide +kernel
  have new : (⟨1, ⟨4⟩, "S''", [⟨1⟩, ⟨0⟩], ["S", endName], true⟩ : Production) ∉
      crowded.productions := by decide +kernel
  refine ⟨crowded_built, known, unused, unused ▸ numbers known, _, member, new, rfl, ?_⟩
  obtain ⟨start, n, ⟨⟩, same, least⟩ := names _ member new
  exact ⟨n, same, least⟩

end ShiftReduce.Grammar
