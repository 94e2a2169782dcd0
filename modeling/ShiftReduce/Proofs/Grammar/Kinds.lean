import ShiftReduce.Proofs.Grammar.Augmentation

/-!
# What is asked of names

An edit asks names to be terminals or nonterminals, and is refused where a name is settled otherwise.
Whatever comes of it, the entries there were stay, but for an implicit terminal that turns into what
was asked for, and every new entry is one that was asked for or that occurs on a right-hand side.
-/
namespace ShiftReduce

/-- What asking for a production of `name` makes of an entry: an implicit terminal of that name is a
nonterminal from then on. -/
def SymbolEntry.claimed (entry : SymbolEntry) (name : String) : SymbolEntry :=
  if entry.name = name ∧ entry.kind = .implicit then { entry with kind := .nonterminal } else entry

@[simp] theorem SymbolEntry.claimed_name (entry : SymbolEntry) (name : String) :
    (entry.claimed name).name = entry.name := by
  unfold claimed
  split <;> rfl

theorem SymbolEntry.claimed_of_ne {entry : SymbolEntry} {name : String} (other : entry.name ≠ name) :
    entry.claimed name = entry := by
  simp [claimed, other]

namespace Grammar

variable {g h : Grammar} {s : Symbol} {name other : String} {kind asked : Symbol.Kind}

theorem marks_iff : g.Marks name kind ↔ ⟨name, kind⟩ ∈ g.entries := by
  rw [List.mem_iff_getElem?]
  constructor
  · rintro ⟨s, entry⟩
    exact ⟨s.index, entry⟩
  · rintro ⟨i, entry⟩
    exact ⟨⟨i⟩, entry⟩

theorem WellFormed.marks_endName (wf : g.WellFormed) : g.Marks endName .declared :=
  ⟨.endOfInput, wf.ending⟩

theorem not_marks_of_unknown (absent : g.symbol? name = none) : ¬ g.Marks name kind := by
  intro marks
  obtain ⟨s, entry⟩ := marks
  exact name_not_mem_of_symbol? absent (List.mem_of_getElem? (entry?_eq_some_iff.mp entry).1)

/-- A known name is of one kind only. -/
theorem WellFormed.marks_symbol?_iff (wf : g.WellFormed) (found : g.symbol? name = some s) :
    g.Marks name kind ↔ g.kind? s = some kind := by
  obtain ⟨known, entry⟩ := wf.symbol?_iff.mp found
  rw [kind?_of_entry entry, Option.some.injEq]
  constructor
  · exact fun marks => Marks.unique wf ⟨s, entry⟩ marks
  · rintro rfl
    exact ⟨s, entry⟩

/-! ## New entries -/

theorem entries_ensure (aligned : g.Aligned) (name : String) (kind : Symbol.Kind) :
    (g.ensure name kind).2.entries = g.entries ∨
      (g.ensure name kind).2.entries = g.entries ++ [⟨name, kind⟩] := by
  cases found : g.symbol? name with
  | some s => exact Or.inl (by rw [ensure_of_known aligned found])
  | none => exact Or.inr (by rw [ensure_of_unknown aligned found, entries_enlarged aligned])

theorem marks_ensure (aligned : g.Aligned) (marks : (g.ensure other asked).2.Marks name kind) :
    g.Marks name kind ∨ name = other ∧ kind = asked := by
  rw [marks_iff] at marks ⊢
  rcases entries_ensure aligned other asked with entries | entries
  · exact Or.inl (entries ▸ marks)
  · simpa [entries] using marks

theorem marks_setKind (aligned : g.Aligned) (found : g.symbol? other = some s)
    (marks : (g.setKind s asked).Marks name kind) :
    g.Marks name kind ∨ name = other ∧ kind = asked := by
  obtain ⟨t, entry⟩ := marks
  rw [entry_setKind] at entry
  split at entry
  next same =>
    have same : s = t := by
      cases s
      cases t
      exact congrArg Symbol.mk same
    subst same
    obtain ⟨known, before⟩ := entry?_of_symbol? aligned found
    rw [before] at entry
    cases entry
    exact Or.inr ⟨rfl, rfl⟩
  next => exact Or.inl ⟨t, entry⟩

theorem marks_addTerminal (aligned : g.Aligned) (marks : (g.addTerminal other).2.Marks name kind) :
    g.Marks name kind ∨ name = other ∧ kind = .declared := by
  unfold addTerminal at marks
  split at marks
  next => exact Or.inl marks
  next =>
    split at marks
    next s found =>
      split at marks
      next => exact marks_setKind aligned found marks
      next => exact Or.inl marks
    next => exact marks_ensure aligned marks

theorem marks_addNonterminal (aligned : g.Aligned)
    (marks : (g.addNonterminal other).2.Marks name kind) :
    g.Marks name kind ∨ name = other ∧ kind = .nonterminal := by
  unfold addNonterminal at marks
  split at marks
  next => exact Or.inl marks
  next =>
    split at marks
    next s found =>
      split at marks
      next => exact Or.inl marks
      next => exact marks_setKind aligned found marks
    next => exact marks_ensure aligned marks

/-- A right-hand side is met name by name, up to one that is refused. -/
theorem ensureAll_cons (g : Grammar) (allowEnd : Bool) (name : String) (rest : List String) :
    (g.ensureAll allowEnd (name :: rest)).2 = if name = endName ∧ !allowEnd then g
      else ((g.ensure name .implicit).2.ensureAll allowEnd rest).2 := by
  rw [ensureAll]
  split
  · rfl
  · dsimp only
    split <;> simp_all

/-- The names of a right-hand side only lead to new entries, of implicit terminals. -/
theorem entries_ensureAll (wf : g.WellFormed) (allowEnd : Bool) (names : List String) :
    ∃ new, (g.ensureAll allowEnd names).2.entries = g.entries ++ new ∧
      ∀ entry ∈ new, entry.kind = .implicit := by
  induction names generalizing g with
  | nil => exact ⟨[], by simp [ensureAll]⟩
  | cons name rest ih =>
    rw [ensureAll_cons]
    by_cases refused : name = endName ∧ !allowEnd
    · rw [if_pos refused]
      exact ⟨[], by simp⟩
    rw [if_neg refused]
    obtain ⟨others, entries, implicit⟩ := ih (wf.ensure name .implicit).1.wellFormed
    rw [entries]
    rcases entries_ensure wf.aligned name .implicit with first | first
    · exact ⟨others, by rw [first], implicit⟩
    · exact ⟨⟨name, .implicit⟩ :: others, by simp [first], by simpa using implicit⟩

theorem marks_ensureAll (wf : g.WellFormed) {allowEnd : Bool} {names : List String}
    (marks : (g.ensureAll allowEnd names).2.Marks name kind) :
    g.Marks name kind ∨ kind = .implicit := by
  obtain ⟨new, entries, implicit⟩ := entries_ensureAll wf allowEnd names
  rw [marks_iff, entries, List.mem_append] at marks
  rcases marks with old | added
  · exact Or.inl (marks_iff.mpr old)
  · exact Or.inr (implicit _ added)

theorem marks_append (wf : g.WellFormed) {rhs : List String} {generated allowEnd : Bool}
    (marks : (g.append other rhs generated allowEnd).2.Marks name kind) :
    g.Marks name kind ∨ name = other ∧ kind = .nonterminal ∨ kind = .implicit := by
  have head (marks : (g.addNonterminal other).2.Marks name kind) :
      g.Marks name kind ∨ name = other ∧ kind = .nonterminal ∨ kind = .implicit :=
    (marks_addNonterminal wf.aligned marks).imp_right Or.inl
  have first := (wf.addNonterminal other).1.wellFormed
  unfold append at marks
  split at marks
  next e h same =>
    rw [same] at head
    exact head marks
  next lhs h same =>
    rw [same] at head first
    have tail (marks : (h.ensureAll allowEnd rhs).2.Marks name kind) :
        g.Marks name kind ∨ name = other ∧ kind = .nonterminal ∨ kind = .implicit :=
      (marks_ensureAll first marks).elim head fun implicit => Or.inr (Or.inr implicit)
    -- the production adds no entry of its own
    split at marks
    next e k same' =>
      rw [same'] at tail
      exact tail marks
    next symbols k same' =>
      rw [same'] at tail
      exact tail marks

/-! ## What is refused -/

/-- A name can be made a terminal unless it is reserved or a nonterminal's. -/
theorem WellFormed.addTerminal_cases (wf : g.WellFormed) (name : String) :
    (name = endName ∧ g.addTerminal name = (.error (.reservedName name), g)) ∨
    (g.Marks name .nonterminal ∧ g.addTerminal name = (.error (.nameConflict name), g)) ∨
    (name ≠ endName ∧ ¬ g.Marks name .nonterminal ∧ ∃ s h, g.addTerminal name = (.ok s, h)) := by
  unfold Grammar.addTerminal
  by_cases reserved : name = endName
  · exact Or.inl ⟨reserved, by rw [if_pos reserved]⟩
  right
  rw [if_neg reserved]
  cases found : g.symbol? name with
  | none => exact Or.inr ⟨reserved, not_marks_of_unknown found, _, _, rfl⟩
  | some s =>
    dsimp only
    by_cases terminal : g.isTerminal s
    · rw [if_pos terminal]
      refine Or.inr ⟨reserved, fun marks => ?_, _, _, rfl⟩
      rw [wf.marks_symbol?_iff found] at marks
      simp [isTerminal, marks, Symbol.Kind.isTerminal] at terminal
    · rw [if_neg terminal]
      obtain ⟨known, entry⟩ := wf.symbol?_iff.mp found
      refine Or.inl ⟨⟨s, ?_⟩, rfl⟩
      rw [entry]
      by_contra other
      exact terminal ((isTerminal_iff wf.aligned).mpr ⟨name, known, entry, by simpa using other⟩)

/-- A name can be made a nonterminal unless it is that of a declared terminal. What is known of other
names stays as it is. -/
theorem WellFormed.addNonterminal_cases (wf : g.WellFormed) (name : String) :
    (g.Marks name .declared ∧ ∃ e, g.addNonterminal name = (.error e, g)) ∨
    (¬ g.Marks name .declared ∧ ∃ s h, g.addNonterminal name = (.ok s, h) ∧
      ∀ t entry, g.entry? t = some entry → h.entry? t = some (entry.claimed name)) := by
  unfold Grammar.addNonterminal
  by_cases reserved : name = endName
  · rw [if_pos reserved]
    exact Or.inl ⟨reserved ▸ wf.marks_endName, _, rfl⟩
  rw [if_neg reserved]
  cases found : g.symbol? name with
  | none =>
    right
    refine ⟨not_marks_of_unknown found, (g.ensure name .nonterminal).1,
      (g.ensure name .nonterminal).2, rfl, fun t entry known => ?_⟩
    have ne : entry.name ≠ name := by
      rintro rfl
      exact not_marks_of_unknown found ⟨t, known⟩
    have bound := (List.getElem?_eq_some_iff.mp known).1
    rw [SymbolEntry.claimed_of_ne ne, ensure_of_unknown wf.aligned found, entry?,
      entries_enlarged wf.aligned]
    exact (List.getElem?_append_left bound).trans known
  | some s =>
    rw [wf.marks_symbol?_iff found]
    dsimp only
    by_cases declared : g.kind? s = some .declared
    · rw [if_pos declared]
      exact Or.inl ⟨declared, _, rfl⟩
    rw [if_neg declared]
    refine Or.inr ⟨declared, s, g.setKind s .nonterminal, rfl, fun t entry known => ?_⟩
    obtain ⟨kind, here⟩ := wf.symbol?_iff.mp found
    rw [entry_setKind, known]
    by_cases same : s = t
    · subst same
      cases here.symm.trans known
      -- a declared terminal was refused above
      cases kind
      · exact absurd (kind?_of_entry here) declared
      · simp [SymbolEntry.claimed]
      · simp [SymbolEntry.claimed]
    · have ne : entry.name ≠ name := by
        rintro rfl
        exact same (Named.unique wf.distinct ⟨_, here⟩ ⟨_, known⟩)
      have apart : s.index ≠ t.index := fun equal => same (congrArg Symbol.mk equal)
      simp [apart, SymbolEntry.claimed_of_ne ne]

/-- The names of a right-hand side are refused for the reserved one only. -/
theorem isOk_ensureAll (g : Grammar) (allowEnd : Bool) (names : List String) :
    (g.ensureAll allowEnd names).1.isOk ↔ allowEnd ∨ endName ∉ names := by
  induction names generalizing g with
  | nil => simp [ensureAll, Except.isOk, Except.toBool]
  | cons name rest ih =>
    have others := ih (g.ensure name .implicit).2
    unfold ensureAll
    by_cases refused : name = endName ∧ !allowEnd
    · rw [if_pos refused]
      obtain ⟨rfl, refused⟩ := refused
      simp_all [Except.isOk, Except.toBool]
    · rw [if_neg refused]
      have permitted : (allowEnd ∨ endName ∉ name :: rest) ↔ (allowEnd ∨ endName ∉ rest) := by
        rw [List.mem_cons]
        grind
      rw [permitted, ← others]
      -- the first name changes nothing about whether the others are refused
      dsimp only
      split <;> simp_all [Except.isOk, Except.toBool]

/-- A production is refused for a left-hand side that is a declared terminal, and for the reserved
name on the right. -/
theorem WellFormed.isOk_append (wf : g.WellFormed) (name : String) (rhs : List String)
    (generated allowEnd : Bool) : (g.append name rhs generated allowEnd).1.isOk ↔
      ¬ g.Marks name .declared ∧ (allowEnd ∨ endName ∉ rhs) := by
  unfold Grammar.append
  obtain ⟨declared, e, refused⟩ | ⟨undeclared, s, h, accepted, -⟩ := wf.addNonterminal_cases name
  · simp [refused, declared, Except.isOk, Except.toBool]
  · have names := isOk_ensureAll h allowEnd rhs
    rw [accepted]
    dsimp only
    rw [← names]
    split <;> simp_all [Except.isOk, Except.toBool]

end Grammar

end ShiftReduce
