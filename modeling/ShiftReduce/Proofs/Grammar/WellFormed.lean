import Mathlib.Data.List.Basic
import Mathlib.Data.List.Nodup
import ShiftReduce.Grammar.Basic

/-!
# Well-formed grammars

Every grammar that edits can lead to numbers its symbols without repetition and keeps its tables and
its productions in step with them. An edit only adds names, and changes at most the kind of a name that
had none of its own yet; so what was recorded about older symbols stays true.
-/
namespace ShiftReduce.Grammar

/-- The grammars that edits lead to, whether the edits succeed or not. -/
inductive Built : Grammar → Prop
  | empty : Built .empty
  | addTerminal {g : Grammar} (name : String) : Built g → Built (g.addTerminal name).2
  | addNonterminal {g : Grammar} (name : String) : Built g → Built (g.addNonterminal name).2
  | addAuthored {g : Grammar} (name : String) (rhs : List String) :
      Built g → Built (g.addAuthored name rhs).2
  | addGenerated {g : Grammar} (name : String) (rhs : List String) :
      Built g → Built (g.addGenerated name rhs).2
  | startFrom {g : Grammar} (name : String) : Built g → Built (g.startFrom name).2
  | augment {g : Grammar} : Built g → Built g.augment.2

/-- The symbol `s` is called `name`. -/
def Named (g : Grammar) (s : Symbol) (name : String) : Prop :=
  ∃ kind, g.entry? s = some ⟨name, kind⟩

/-- Both tables have one row for each name. -/
structure Aligned (g : Grammar) : Prop where
  kinds : g.kinds.length = g.names.length
  byLhs : g.byLhs.length = g.names.length

structure WellFormed (g : Grammar) : Prop where
  aligned : g.Aligned
  distinct : g.names.Nodup
  ending : g.entry? .endOfInput = some ⟨endName, .declared⟩
  indexed : ∀ i p, g.production? i = some p → p.index = i
  left : ∀ p ∈ g.productions, g.entry? p.lhs = some ⟨p.name, .nonterminal⟩
  right : ∀ p ∈ g.productions, List.Forall₂ g.Named p.rhs p.rhsNames
  /-- The productions of a symbol are listed in order. -/
  listed : ∀ s, g.productionsOf s = (g.productions.filter (·.lhs = s)).map (·.index)
  /-- The end of the input occurs in the accept production only. -/
  ends : ∀ p ∈ g.productions, Symbol.endOfInput ∈ p.rhs → g.accept = some p.index
  accepting : ∀ i, g.accept = some i → ∃ p s,
    g.production? i = some p ∧ p.rhs = [s, .endOfInput] ∧ g.isNonterminal s

/-! ## Reading entries -/

variable {g h k : Grammar} {s : Symbol} {name : String}

theorem entry?_eq_some_iff {e : SymbolEntry} : g.entry? s = some e ↔
    g.names[s.index]? = some e.name ∧ g.kinds[s.index]? = some e.kind := by
  rw [ entry?, entries, List.getElem?_zipWith_eq_some]
  constructor
  · rintro ⟨name, kind, atName, atKind, rfl⟩
    exact ⟨atName, atKind⟩
  · rintro ⟨atName, atKind⟩
    exact ⟨_, _, atName, atKind, rfl⟩

theorem name?_of_symbol? (found : g.symbol? name = some s) : g.names[s.index]? = some name := by
  simp only [symbol?, Option.map_eq_some_iff] at found
  obtain ⟨i, found, rfl⟩ := found
  -- a name stands for its first place
  obtain ⟨bound, same, -⟩ := List.findIdx?_eq_some_iff_getElem.mp found
  rw [List.getElem?_eq_getElem bound, of_decide_eq_true same]

theorem entry?_of_symbol? (aligned : g.Aligned) (found : g.symbol? name = some s) :
    g.Named s name := by
  have atName := name?_of_symbol? found
  have bound : s.index < g.kinds.length :=
    aligned.kinds ▸ (List.getElem?_eq_some_iff.mp atName).1
  exact ⟨_, entry?_eq_some_iff.mpr ⟨atName, List.getElem?_eq_getElem bound⟩⟩

theorem name_not_mem_of_symbol? (absent : g.symbol? name = none) : name ∉ g.names := by
  simp only [symbol?, Option.map_eq_none_iff, List.findIdx?_eq_none_iff] at absent
  intro member
  simpa using absent name member

theorem kind?_of_entry {e : SymbolEntry} (entry : g.entry? s = some e) :
    g.kind? s = some e.kind := (entry?_eq_some_iff.mp entry).2

theorem index_lt_of_entry {e : SymbolEntry} (entry : g.entry? s = some e) :
    s.index < g.numSymbols := (List.getElem?_eq_some_iff.mp (kind?_of_entry entry)).1

theorem Named.name?_eq (named : g.Named s name) : g.names[s.index]? = some name := by
  obtain ⟨kind, entry⟩ := named
  exact (entry?_eq_some_iff.mp entry).1

theorem Named.index_lt (named : g.Named s name) : s.index < g.numSymbols := by
  obtain ⟨kind, entry⟩ := named
  exact index_lt_of_entry entry

theorem Named.name_eq (named : g.Named s name) : g.name s = name := by
  rw [Grammar.name, named.name?_eq, Option.getD_some]

/-- Names without repetition number the symbols: a name stands for at most one. -/
theorem Named.unique (distinct : g.names.Nodup) {t : Symbol}
    (first : g.Named s name) (second : g.Named t name) : s = t := by
  have bound := (List.getElem?_eq_some_iff.mp first.name?_eq).1
  have same := (List.getElem?_inj bound distinct).mp (first.name?_eq.trans second.name?_eq.symm)
  cases s
  cases t
  exact congrArg Symbol.mk same

theorem WellFormed.symbol?_iff (wf : g.WellFormed) : g.symbol? name = some s ↔ g.Named s name := by
  constructor
  · exact entry?_of_symbol? wf.aligned
  · intro named
    cases found : g.symbol? name with
    | none => exact absurd (List.mem_of_getElem? named.name?_eq) (name_not_mem_of_symbol? found)
    | some t => rw [Named.unique wf.distinct (entry?_of_symbol? wf.aligned found) named]

theorem WellFormed.symbol?_eq_endOfInput_iff (wf : g.WellFormed) :
    g.symbol? name = some .endOfInput ↔ name = endName := by
  rw [wf.symbol?_iff, Named, wf.ending]
  constructor
  · rintro ⟨_, same⟩
    exact (congrArg SymbolEntry.name (Option.some.inj same)).symm
  · rintro rfl
    exact ⟨_, rfl⟩

/-- A symbol that has a kind has a name as well. -/
theorem exists_entry_iff (aligned : g.Aligned) {kind : Symbol.Kind} :
    (∃ name, g.entry? s = some ⟨name, kind⟩) ↔ g.kind? s = some kind := by
  constructor
  · rintro ⟨name, entry⟩
    exact kind?_of_entry entry
  · intro known
    have bound : s.index < g.names.length :=
      aligned.kinds ▸ (List.getElem?_eq_some_iff.mp known).1
    exact ⟨_, entry?_eq_some_iff.mpr ⟨List.getElem?_eq_getElem bound, known⟩⟩

theorem isNonterminal_iff (aligned : g.Aligned) :
    g.isNonterminal s ↔ ∃ name, g.entry? s = some ⟨name, .nonterminal⟩ := by
  rw [exists_entry_iff aligned, isNonterminal]
  rcases g.kind? s with _ | _ | _ | _ <;> simp [Symbol.Kind.isTerminal]

theorem isTerminal_iff (aligned : g.Aligned) : g.isTerminal s ↔
    ∃ name kind, g.entry? s = some ⟨name, kind⟩ ∧ kind ≠ .nonterminal := by
  rw [exists_comm]
  simp only [exists_and_right, exists_entry_iff aligned, isTerminal]
  rcases g.kind? s with _ | _ | _ | _ <;> simp [Symbol.Kind.isTerminal]

theorem index_lt_of_isTerminal (terminal : g.isTerminal s) : s.index < g.numSymbols := by
  obtain ⟨kind, known, -⟩ := (Option.any_eq_true _ _).mp terminal
  exact (List.getElem?_eq_some_iff.mp known).1

theorem index_lt_of_isNonterminal (nonterminal : g.isNonterminal s) : s.index < g.numSymbols := by
  obtain ⟨kind, known, -⟩ := (Option.any_eq_true _ _).mp nonterminal
  exact (List.getElem?_eq_some_iff.mp known).1

theorem not_isTerminal_of_isNonterminal (nonterminal : g.isNonterminal s) : ¬ g.isTerminal s := by
  revert nonterminal
  unfold isNonterminal isTerminal
  rcases g.kind? s with _ | _ | _ | _ <;> simp [Symbol.Kind.isTerminal]

theorem isTerminal_or_isNonterminal (named : g.Named s name) : g.isTerminal s ∨ g.isNonterminal s := by
  obtain ⟨kind, entry⟩ := named
  unfold isTerminal isNonterminal
  rw [kind?_of_entry entry]
  cases kind <;> simp [Symbol.Kind.isTerminal]

theorem WellFormed.isTerminal_endOfInput (wf : g.WellFormed) : g.isTerminal .endOfInput :=
  (isTerminal_iff wf.aligned).mpr ⟨_, _, wf.ending, by decide⟩

theorem WellFormed.ne_endOfInput (wf : g.WellFormed) (nonterminal : g.isNonterminal s) :
    s ≠ .endOfInput := by
  rintro rfl
  exact not_isTerminal_of_isNonterminal nonterminal wf.isTerminal_endOfInput

/-! ## Productions -/

/-- A production is found under its own index. -/
theorem WellFormed.production?_index (wf : g.WellFormed) {p : Production}
    (member : p ∈ g.productions) : g.production? p.index = some p := by
  obtain ⟨i, found⟩ := List.mem_iff_getElem?.mp member
  rw [wf.indexed i p found]
  exact found

theorem WellFormed.index_injective (wf : g.WellFormed) {p q : Production}
    (inP : p ∈ g.productions) (inQ : q ∈ g.productions) (same : p.index = q.index) : p = q := by
  have foundP := wf.production?_index inP
  rw [same, wf.production?_index inQ] at foundP
  exact (Option.some.inj foundP).symm

theorem WellFormed.productions_nodup (wf : g.WellFormed) : g.productions.Nodup := by
  apply List.nodup_iff_getElem?_ne_getElem?.mpr
  intro i j less bound same
  have atI := List.getElem?_eq_getElem (Nat.lt_trans less bound)
  have atJ := List.getElem?_eq_getElem bound
  have indexI := wf.indexed i _ atI
  have indexJ := wf.indexed j _ (same ▸ atI)
  omega

theorem mem_of_production? {i : Nat} {p : Production} (found : g.production? i = some p) :
    p ∈ g.productions := List.mem_of_getElem? found

theorem WellFormed.isNonterminal_lhs (wf : g.WellFormed) {p : Production}
    (member : p ∈ g.productions) : g.isNonterminal p.lhs :=
  (isNonterminal_iff wf.aligned).mpr ⟨p.name, wf.left p member⟩

theorem WellFormed.pairwise_index (wf : g.WellFormed) :
    (g.productions.map (·.index)).Pairwise (· < ·) := by
  refine List.pairwise_map.mpr (List.pairwise_iff_getElem.mpr fun i j boundI boundJ less => ?_)
  rw [wf.indexed i _ (List.getElem?_eq_getElem boundI),
    wf.indexed j _ (List.getElem?_eq_getElem boundJ)]
  exact less

theorem WellFormed.productionsOf_pairwise (wf : g.WellFormed) (s : Symbol) :
    (g.productionsOf s).Pairwise (· < ·) := by
  rw [wf.listed]
  exact wf.pairwise_index.sublist (List.filter_sublist.map _)

theorem WellFormed.mem_productionsOf_iff (wf : g.WellFormed) {i : Nat} :
    i ∈ g.productionsOf s ↔ ∃ p ∈ g.productions, p.lhs = s ∧ p.index = i := by
  simp [wf.listed, and_assoc]

/-! ## Growing -/

/-- What one grammar records about symbols stays true in the other, but for implicit terminals,
which can turn into anything. -/
def Grows (g h : Grammar) : Prop := ∀ s e, g.entry? s = some e →
  ∃ kind, h.entry? s = some ⟨e.name, kind⟩ ∧ (kind = e.kind ∨ e.kind = .implicit)

theorem Grows.of_tables (names : h.names = g.names) (kinds : h.kinds = g.kinds) : g.Grows h := by
  intro s e entry
  exact ⟨e.kind, by rw [ entry?, entries, names, kinds]; exact entry, Or.inl rfl⟩

theorem Grows.refl (g : Grammar) : g.Grows g := .of_tables rfl rfl

theorem Grows.trans (first : g.Grows h) (second : h.Grows k) : g.Grows k := by
  intro s e entry
  obtain ⟨kind, entry', same⟩ := first s e entry
  obtain ⟨kind', entry'', same'⟩ := second s _ entry'
  refine ⟨kind', entry'', ?_⟩
  rcases same with rfl | implicit
  · exact same'
  · exact Or.inr implicit

theorem Grows.named (grows : g.Grows h) (named : g.Named s name) : h.Named s name := by
  obtain ⟨kind, entry⟩ := named
  obtain ⟨kind', entry', -⟩ := grows s _ entry
  exact ⟨kind', entry'⟩

theorem Grows.entry?_of_ne (grows : g.Grows h) {kind : Symbol.Kind} (settled : kind ≠ .implicit)
    (entry : g.entry? s = some ⟨name, kind⟩) : h.entry? s = some ⟨name, kind⟩ := by
  obtain ⟨kind', entry', same | implicit⟩ := grows s _ entry
  · rw [entry', same]
  · exact absurd implicit settled

/-- Some symbol is called `name` and is of this kind. -/
def Marks (g : Grammar) (name : String) (kind : Symbol.Kind) : Prop :=
  ∃ s, g.entry? s = some ⟨name, kind⟩

/-- Some symbol is called `name`. -/
def Mentions (g : Grammar) (name : String) : Prop := ∃ s, g.Named s name

theorem Grows.marks (grows : g.Grows h) {kind : Symbol.Kind} (settled : kind ≠ .implicit)
    (marks : g.Marks name kind) : h.Marks name kind := by
  obtain ⟨s, entry⟩ := marks
  exact ⟨s, grows.entry?_of_ne settled entry⟩

theorem Grows.mentions (grows : g.Grows h) (mentions : g.Mentions name) : h.Mentions name := by
  obtain ⟨s, named⟩ := mentions
  exact ⟨s, grows.named named⟩

theorem Marks.mentions {kind : Symbol.Kind} (marks : g.Marks name kind) : g.Mentions name := by
  obtain ⟨s, entry⟩ := marks
  exact ⟨s, kind, entry⟩

/-- A name is of one kind. -/
theorem Marks.unique (wf : g.WellFormed) {first second : Symbol.Kind} (one : g.Marks name first)
    (two : g.Marks name second) : first = second := by
  obtain ⟨s, entry⟩ := one
  obtain ⟨t, entry'⟩ := two
  obtain rfl := Named.unique wf.distinct ⟨first, entry⟩ ⟨second, entry'⟩
  rw [entry] at entry'
  cases entry'
  rfl

theorem WellFormed.marks_of_mem (wf : g.WellFormed) {p : Production} (member : p ∈ g.productions) :
    g.Marks p.name .nonterminal := ⟨p.lhs, wf.left p member⟩

/-- An edit that adds no production keeps a grammar well-formed, if names stay distinct and the
tables aligned. -/
theorem WellFormed.grow (wf : g.WellFormed) (grows : g.Grows h) (aligned : h.Aligned)
    (distinct : h.names.Nodup) (productions : h.productions = g.productions)
    (listed : ∀ s, h.productionsOf s = g.productionsOf s) (accept : h.accept = g.accept) :
    h.WellFormed where
  aligned := aligned
  distinct := distinct
  ending := grows.entry?_of_ne (by decide) wf.ending
  indexed i p found := wf.indexed i p (by rw [production?, ← productions]; exact found)
  left p member := grows.entry?_of_ne (by decide) (wf.left p (productions ▸ member))
  right p member := (wf.right p (productions ▸ member)).imp fun _ _ => grows.named
  listed s := by rw [listed, productions, wf.listed]
  ends p member occurs := accept ▸ wf.ends p (productions ▸ member) occurs
  accepting i chosen := by
    obtain ⟨p, s, found, rhs, nonterminal⟩ := wf.accepting i (accept ▸ chosen)
    obtain ⟨name, entry⟩ := (isNonterminal_iff wf.aligned).mp nonterminal
    exact ⟨p, s, by rw [production?, productions]; exact found, rhs,
      (isNonterminal_iff aligned).mpr ⟨name, grows.entry?_of_ne (by decide) entry⟩⟩

/-! ## Edits -/

theorem entry_setKind (g : Grammar) (s t : Symbol) (kind : Symbol.Kind) :
    entry? (g.setKind s kind) t =
      if s.index = t.index then (g.entry? t).map (fun e => { e with kind }) else g.entry? t := by
  simp only [setKind, entry?, entries, List.getElem?_zipWith, List.getElem?_set]
  by_cases same : s.index = t.index
  · rw [if_pos same, if_pos same, ← same]
    cases g.names[s.index]? with
    | none => rfl
    | some name => by_cases bound : s.index < g.kinds.length <;> simp [bound]
  · rw [if_neg same, if_neg same]

theorem Aligned.setKind (aligned : g.Aligned) (s : Symbol) (kind : Symbol.Kind) :
    (g.setKind s kind).Aligned :=
  ⟨by simpa [Grammar.setKind] using aligned.kinds, aligned.byLhs⟩

/-- A kind can be given again, and an implicit terminal can be given any. -/
theorem grows_setKind {kind : Symbol.Kind}
    (allowed : ∀ e, g.entry? s = some e → e.kind = kind ∨ e.kind = .implicit) :
    g.Grows (g.setKind s kind) := by
  intro t e entry
  rw [entry_setKind, entry]
  split
  next same =>
    have same : s = t := by
      cases s
      cases t
      exact congrArg Symbol.mk same
    subst same
    exact ⟨kind, rfl, (allowed e entry).imp_left Eq.symm⟩
  next => exact ⟨e.kind, rfl, Or.inl rfl⟩

theorem WellFormed.setKind (wf : g.WellFormed) {kind : Symbol.Kind}
    (allowed : ∀ e, g.entry? s = some e → e.kind = kind ∨ e.kind = .implicit) :
    (g.setKind s kind).WellFormed :=
  wf.grow (grows_setKind allowed) (wf.aligned.setKind s kind) wf.distinct rfl (fun _ => rfl) rfl

/-- What an edit leaves behind, apart from the productions and the start. -/
structure Keeps (g h : Grammar) : Prop where
  wellFormed : h.WellFormed
  grows : g.Grows h
  productions : h.productions = g.productions
  accept : h.accept = g.accept
  start : h.start = g.start

theorem Keeps.refl (wf : g.WellFormed) : g.Keeps g := ⟨wf, .refl g, rfl, rfl, rfl⟩

theorem Keeps.trans (first : g.Keeps h) (second : h.Keeps k) : g.Keeps k where
  wellFormed := second.wellFormed
  grows := first.grows.trans second.grows
  productions := second.productions.trans first.productions
  accept := second.accept.trans first.accept
  start := second.start.trans first.start

theorem ensure_of_known (aligned : g.Aligned) (found : g.symbol? name = some s)
    (kind : Symbol.Kind) : g.ensure name kind = (s, g) := by
  have bound := (List.getElem?_eq_some_iff.mp (name?_of_symbol? found)).1
  have old : s.index ≠ g.kinds.length := by
    have kinds := aligned.kinds
    omega
  simp [Grammar.ensure, intern, found, old]

/-- The grammar with one more symbol behind the others. -/
def enlarged (g : Grammar) (name : String) (kind : Symbol.Kind) : Grammar :=
  { g with names := g.names ++ [name], kinds := g.kinds ++ [kind], byLhs := g.byLhs ++ [[]] }

theorem ensure_of_unknown (aligned : g.Aligned) (absent : g.symbol? name = none)
    (kind : Symbol.Kind) : g.ensure name kind = (⟨g.numSymbols⟩, g.enlarged name kind) := by
  simp [Grammar.ensure, intern, absent, enlarged, numSymbols, aligned.kinds]

theorem Aligned.enlarged (aligned : g.Aligned) (name : String) (kind : Symbol.Kind) :
    (g.enlarged name kind).Aligned :=
  ⟨by simp [Grammar.enlarged, aligned.kinds], by simp [Grammar.enlarged, aligned.byLhs]⟩

theorem entries_enlarged (aligned : g.Aligned) (name : String) (kind : Symbol.Kind) :
    (g.enlarged name kind).entries = g.entries ++ [⟨name, kind⟩] := by
  simp [entries, enlarged, List.zipWith_append aligned.kinds.symm]

theorem length_entries (aligned : g.Aligned) : g.entries.length = g.numSymbols := by
  simp [entries, numSymbols, aligned.kinds]

/-- A new entry goes behind the others, so no older symbol moves. -/
theorem grows_enlarged (aligned : g.Aligned) (name : String) (kind : Symbol.Kind) :
    g.Grows (g.enlarged name kind) := by
  intro s e entry
  have bound := (List.getElem?_eq_some_iff.mp entry).1
  refine ⟨e.kind, ?_, Or.inl rfl⟩
  rw [ entry?, entries_enlarged aligned, List.getElem?_append_left bound]
  exact entry

/-- A new symbol is the left-hand side of no production yet. -/
theorem productionsOf_enlarged (g : Grammar) (name : String) (kind : Symbol.Kind) (s : Symbol) :
    (g.enlarged name kind).productionsOf s = g.productionsOf s := by
  simp only [productionsOf, enlarged, List.getElem?_append]
  split
  · rfl
  next beyond =>
    rw [List.getElem?_eq_none (Nat.le_of_not_lt beyond)]
    cases s.index - g.byLhs.length <;> rfl

theorem WellFormed.enlarged (wf : g.WellFormed) (absent : g.symbol? name = none)
    (kind : Symbol.Kind) : g.Keeps (g.enlarged name kind) := by
  have grows := grows_enlarged wf.aligned name kind
  have distinct : (g.enlarged name kind).names.Nodup :=
    List.Nodup.append wf.distinct (List.nodup_singleton _)
      (by simpa using name_not_mem_of_symbol? absent)
  exact ⟨wf.grow grows (wf.aligned.enlarged name kind) distinct rfl
    (g.productionsOf_enlarged name kind) rfl, grows, rfl, rfl, rfl⟩

/-- A new symbol has the kind it was asked for. -/
theorem entry?_ensure_of_unknown (aligned : g.Aligned) (absent : g.symbol? name = none)
    (kind : Symbol.Kind) :
    entry? (g.ensure name kind).2 (g.ensure name kind).1 = some ⟨name, kind⟩ := by
  rw [ensure_of_unknown aligned absent, entry?, entries_enlarged aligned,
    ← length_entries aligned, List.getElem?_concat_length]

theorem WellFormed.ensure (wf : g.WellFormed) (name : String) (kind : Symbol.Kind) :
    g.Keeps (g.ensure name kind).2 ∧ (g.ensure name kind).2.Named (g.ensure name kind).1 name := by
  cases found : g.symbol? name with
  | some s =>
    rw [ensure_of_known wf.aligned found]
    exact ⟨.refl wf, entry?_of_symbol? wf.aligned found⟩
  | none =>
    have entry := entry?_ensure_of_unknown wf.aligned found kind
    refine ⟨?_, kind, entry⟩
    rw [ensure_of_unknown wf.aligned found]
    exact wf.enlarged found kind

theorem WellFormed.addTerminal (wf : g.WellFormed) (name : String) :
    g.Keeps (g.addTerminal name).2 := by
  unfold Grammar.addTerminal
  split
  · exact .refl wf
  · split
    next s found =>
      split
      next terminal =>
        obtain ⟨_, kind, entry, ne⟩ := (isTerminal_iff wf.aligned).mp terminal
        -- a known terminal is declared already, or it is implicit and may become anything
        have allowed (e : SymbolEntry) (same : g.entry? s = some e) :
            e.kind = .declared ∨ e.kind = .implicit := by
          rw [entry] at same
          cases same
          cases kind
          · exact Or.inl rfl
          · exact Or.inr rfl
          · exact absurd rfl ne
        exact ⟨wf.setKind allowed, grows_setKind allowed, rfl, rfl, rfl⟩
      next => exact .refl wf
    next => exact (wf.ensure name .declared).1

/-- A terminal that was added is declared. -/
theorem entry?_addTerminal (aligned : g.Aligned) (done : (g.addTerminal name).1 = .ok s) :
    entry? (g.addTerminal name).2 s = some ⟨name, .declared⟩ := by
  unfold Grammar.addTerminal at done ⊢
  split at done
  next => cases done
  next proper =>
    rw [if_neg proper]
    split at done
    next t found =>
      split at done
      next terminal =>
        cases done
        obtain ⟨kind, entry⟩ := entry?_of_symbol? aligned found
        simp [terminal, entry_setKind, entry]
      next => cases done
    next absent =>
      cases done
      exact entry?_ensure_of_unknown aligned absent .declared

theorem WellFormed.addNonterminal (wf : g.WellFormed) (name : String) :
    g.Keeps (g.addNonterminal name).2 ∧ ∀ s, (g.addNonterminal name).1 = .ok s →
      entry? (g.addNonterminal name).2 s = some ⟨name, .nonterminal⟩ := by
  unfold Grammar.addNonterminal
  split
  · exact ⟨.refl wf, by simp⟩
  · split
    next s found =>
      split
      · exact ⟨.refl wf, by simp⟩
      next undeclared =>
        obtain ⟨kind, entry⟩ := entry?_of_symbol? wf.aligned found
        -- what is declared was refused above; an implicit terminal may turn into a nonterminal
        have allowed (e : SymbolEntry) (same : g.entry? s = some e) :
            e.kind = .nonterminal ∨ e.kind = .implicit := by
          rw [entry] at same
          cases same
          cases kind
          · exact absurd (kind?_of_entry entry) undeclared
          · exact Or.inr rfl
          · exact Or.inl rfl
        refine ⟨⟨wf.setKind allowed, grows_setKind allowed, rfl, rfl, rfl⟩, ?_⟩
        intro t same
        cases same
        rw [entry_setKind, if_pos rfl, entry]
        rfl
    next absent =>
      refine ⟨(wf.ensure name .nonterminal).1, ?_⟩
      intro t same
      cases same
      exact entry?_ensure_of_unknown wf.aligned absent .nonterminal

theorem WellFormed.ensureAll (wf : g.WellFormed) (allowEnd : Bool) (names : List String) :
    g.Keeps (g.ensureAll allowEnd names).2 ∧
      ∀ symbols, (g.ensureAll allowEnd names).1 = .ok symbols →
        List.Forall₂ (g.ensureAll allowEnd names).2.Named symbols names ∧
          (allowEnd = false → endName ∉ names) := by
  induction names generalizing g with
  | nil => exact ⟨.refl wf, by rintro _ ⟨⟩; exact ⟨.nil, by simp⟩⟩
  | cons name rest ih =>
    unfold Grammar.ensureAll
    split
    · exact ⟨.refl wf, by simp⟩
    next permitted =>
      obtain ⟨first, named⟩ := wf.ensure name .implicit
      obtain ⟨others, all⟩ := ih first.wellFormed
      dsimp only
      split
      next symbols after same =>
        rw [same] at others all
        obtain ⟨each, ends⟩ := all symbols rfl
        refine ⟨first.trans others, ?_⟩
        rintro _ ⟨⟩
        -- the first name stays named while the others are added
        refine ⟨.cons (others.grows.named named) each, fun forbidden member => ?_⟩
        rcases List.mem_cons.mp member with same | member
        · exact permitted ⟨same.symm, by simp [forbidden]⟩
        · exact ends forbidden member
      next after same =>
        rw [same] at others
        exact ⟨first.trans others, by simp⟩

/-- The end of the input is its own symbol: a name that is not reserved is another one. -/
theorem endOfInput_not_mem (wf : g.WellFormed) {symbols : List Symbol} {names : List String}
    (named : List.Forall₂ g.Named symbols names) (free : endName ∉ names) :
    Symbol.endOfInput ∉ symbols := by
  induction named with
  | nil => simp
  | cons first _ ih =>
    rw [List.mem_cons, not_or] at free ⊢
    refine ⟨?_, ih free.2⟩
    rintro rfl
    obtain ⟨kind, entry⟩ := first
    rw [wf.ending] at entry
    cases entry
    exact free.1 rfl

/-- The grammar with one more production behind the others. -/
def extended (g : Grammar) (p : Production) : Grammar :=
  { g with
    productions := g.productions ++ [p]
    byLhs := g.byLhs.modify p.lhs.index (· ++ [p.index]) }

theorem Aligned.extended (aligned : g.Aligned) (p : Production) : (g.extended p).Aligned :=
  ⟨aligned.kinds, by simpa [Grammar.extended] using aligned.byLhs⟩

/-- A production is listed behind the others of its left-hand side, and nowhere else. -/
theorem productionsOf_extended (aligned : g.Aligned) {p : Production} (left : g.Named p.lhs name)
    (s : Symbol) : (g.extended p).productionsOf s =
      g.productionsOf s ++ if p.lhs = s then [p.index] else [] := by
  simp only [productionsOf, extended, List.getElem?_modify]
  by_cases same : p.lhs = s
  · subst same
    have bound : p.lhs.index < g.byLhs.length := by
      rw [aligned.byLhs]
      exact (List.getElem?_eq_some_iff.mp left.name?_eq).1
    simp [List.getElem?_eq_getElem bound]
  · have apart : p.lhs.index ≠ s.index := fun equal => same (congrArg Symbol.mk equal)
    simp [same, apart]

theorem extended_production? (g : Grammar) {p : Production} {i : Nat} {q : Production}
    (found : (g.extended p).production? i = some q) :
    g.production? i = some q ∨ i = g.productions.length ∧ q = p := by
  simp only [production?, extended, List.getElem?_append] at found
  split at found
  · exact Or.inl found
  next above =>
    obtain ⟨low, same⟩ := List.getElem?_eq_some_iff.mp found
    have low : i - g.productions.length < 1 := low
    exact Or.inr ⟨by omega, by simpa using same.symm⟩

/-- Adding a production, and choosing how the grammar is entered, keeps a grammar well-formed if
the end of the input is where it belongs afterwards. -/
theorem WellFormed.extended (wf : g.WellFormed) {p : Production} {start : Option String}
    {accept : Option Nat} (index : p.index = g.productions.length)
    (left : g.entry? p.lhs = some ⟨p.name, .nonterminal⟩)
    (right : List.Forall₂ g.Named p.rhs p.rhsNames)
    (ends : ∀ q ∈ (g.extended p).productions, Symbol.endOfInput ∈ q.rhs → accept = some q.index)
    (accepting : ∀ i, accept = some i → ∃ q s,
      (g.extended p).production? i = some q ∧ q.rhs = [s, .endOfInput] ∧ g.isNonterminal s) :
    { g.extended p with start, accept }.WellFormed where
  aligned := ⟨(wf.aligned.extended p).kinds, (wf.aligned.extended p).byLhs⟩
  distinct := wf.distinct
  ending := wf.ending
  indexed i q found := by
    rcases g.extended_production? found with old | ⟨rfl, rfl⟩
    · exact wf.indexed i q old
    · exact index
  left q member := by
    rcases List.mem_append.mp member with old | new
    · exact wf.left q old
    · exact List.mem_singleton.mp new ▸ left
  right q member := by
    rcases List.mem_append.mp member with old | new
    · exact wf.right q old
    · exact List.mem_singleton.mp new ▸ right
  listed s := by
    have row := productionsOf_extended wf.aligned ⟨_, left⟩ s
    rw [wf.listed] at row
    refine row.trans ?_
    by_cases same : p.lhs = s <;> simp [Grammar.extended, same]
  ends := ends
  accepting := accepting

/-- What an attempt to add a production comes to: the names met are kept in any case. -/
theorem WellFormed.append_cases (wf : g.WellFormed) (name : String) (rhs : List String)
    (generated allowEnd : Bool) : ∃ h, g.Keeps h ∧
      ((∃ e, g.append name rhs generated allowEnd = (.error e, h)) ∨
        ∃ lhs symbols, h.entry? lhs = some ⟨name, .nonterminal⟩ ∧
          List.Forall₂ h.Named symbols rhs ∧ (allowEnd = false → endName ∉ rhs) ∧
          g.append name rhs generated allowEnd = (.ok h.productions.length,
            h.extended ⟨h.productions.length, lhs, name, symbols, rhs, generated⟩)) := by
  obtain ⟨first, head⟩ := wf.addNonterminal name
  unfold Grammar.append
  split
  next e h same =>
    rw [same] at first
    exact ⟨h, first, Or.inl ⟨e, rfl⟩⟩
  next lhs h same =>
    rw [same] at first head
    have entry := head lhs rfl
    obtain ⟨second, each⟩ := first.wellFormed.ensureAll allowEnd rhs
    split
    next e k same' =>
      rw [same'] at second
      exact ⟨k, first.trans second, Or.inl ⟨e, rfl⟩⟩
    next symbols k same' =>
      rw [same'] at second each
      obtain ⟨named, ends⟩ := each symbols rfl
      exact ⟨k, first.trans second, Or.inr ⟨lhs, symbols,
        second.grows.entry?_of_ne (by decide) entry, named, ends, rfl⟩⟩

theorem WellFormed.append (wf : g.WellFormed) (name : String) (rhs : List String)
    (generated : Bool) : (g.append name rhs generated false).2.WellFormed := by
  obtain ⟨h, keeps, ⟨e, same⟩ | ⟨lhs, symbols, left, right, ends, same⟩⟩ :=
    wf.append_cases name rhs generated false
  · exact same ▸ keeps.wellFormed
  · rw [same]
    apply keeps.wellFormed.extended rfl left right
    · intro q member occurs
      rcases List.mem_append.mp member with old | new
      · exact keeps.wellFormed.ends q old occurs
      -- no name of the new right-hand side was the reserved one
      · cases List.mem_singleton.mp new
        exact absurd occurs (endOfInput_not_mem keeps.wellFormed right (ends rfl))
    · intro i chosen
      obtain ⟨q, s, found, rest⟩ := keeps.wellFormed.accepting i chosen
      have bound := (List.getElem?_eq_some_iff.mp found).1
      exact ⟨q, s, (List.getElem?_append_left bound).trans found, rest⟩

theorem WellFormed.startFrom (wf : g.WellFormed) (name : String) :
    (g.startFrom name).2.WellFormed := by
  unfold Grammar.startFrom
  split
  · split <;> exact wf
  · have aligned := wf.aligned
    exact wf.grow (.of_tables rfl rfl) ⟨aligned.kinds, aligned.byLhs⟩ wf.distinct rfl
      (fun _ => rfl) rfl

end ShiftReduce.Grammar
