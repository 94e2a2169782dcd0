import ShiftReduce.Proofs.Grammar.Freshness
import ShiftReduce.Proofs.Grammar.Sentences
import ShiftReduce.Proofs.Grammar.UnusedNames

/-!
# Edits that are rejected

An edit is rejected for a name that cannot be what is asked of it. Most edits look at all their names
before they change anything. A production is the exception: its left-hand side is made a nonterminal
before its right-hand side is looked at, so an implicit terminal turns into a nonterminal without
productions, and the words it occurs in are lost.
-/
namespace ShiftReduce

namespace Grammar

variable {g h : Grammar} {s : Symbol} {name : String}

/-! ## What a rejected edit leaves -/

theorem WellFormed.entry?_append_rejected (wf : g.WellFormed) {rhs : List String}
    {generated allowEnd : Bool} {e : Fault}
    (rejected : g.append name rhs generated allowEnd = (.error e, h)) {entry : SymbolEntry}
    (known : g.entry? s = some entry) : h.entry? s = some (entry.claimed name) := by
  unfold Grammar.append at rejected
  obtain ⟨⟨t, declared⟩, e, refused⟩ | ⟨-, t, k, accepted, claims⟩ := wf.addNonterminal_cases name
  · -- the name was refused at once, and it is not an implicit terminal's
    rw [refused] at rejected
    cases rejected
    obtain ⟨other, kind⟩ := entry
    by_cases same : other = name
    · subst same
      cases Named.unique wf.distinct ⟨_, declared⟩ ⟨_, known⟩
      cases declared.symm.trans known
      simpa [SymbolEntry.claimed] using known
    · rw [SymbolEntry.claimed_of_ne same]
      exact known
  · rw [accepted] at rejected
    dsimp only at rejected
    split at rejected
    next e' h' refused =>
      cases rejected
      have after := accepted ▸ (wf.addNonterminal name).1.wellFormed
      obtain ⟨new, entries, -⟩ := entries_ensureAll after allowEnd rhs
      have claimed := claims s entry known
      rw [refused] at entries
      rw [ entry?, entries, List.getElem?_append_left (List.getElem?_eq_some_iff.mp claimed).1]
      exact claimed
    next => cases rejected

theorem WellFormed.eq_of_addTerminal_rejected (wf : g.WellFormed) {e : Fault}
    (rejected : g.addTerminal name = (.error e, h)) : h = g := by
  obtain ⟨-, refused⟩ | ⟨-, refused⟩ | ⟨-, -, s, k, accepted⟩ := wf.addTerminal_cases name
  · exact (congrArg Prod.snd (refused.symm.trans rejected)).symm
  · exact (congrArg Prod.snd (refused.symm.trans rejected)).symm
  · cases accepted.symm.trans rejected

theorem WellFormed.eq_of_addNonterminal_rejected (wf : g.WellFormed) {e : Fault}
    (rejected : g.addNonterminal name = (.error e, h)) : h = g := by
  obtain ⟨-, e, refused⟩ | ⟨-, s, k, accepted, -⟩ := wf.addNonterminal_cases name
  · exact (congrArg Prod.snd (refused.symm.trans rejected)).symm
  · cases accepted.symm.trans rejected

theorem eq_of_startFrom_rejected {e : Fault} (rejected : g.startFrom name = (.error e, h)) :
    h = g := by
  unfold startFrom at rejected
  split at rejected
  next =>
    split at rejected
    next => cases rejected
    next => exact (congrArg Prod.snd rejected).symm
  next => cases rejected

end Grammar

/-- What an edit that is rejected makes of an entry. -/
def Edit.claim (edit : Edit) (entry : SymbolEntry) : SymbolEntry :=
  match edit.rule? with
  | some (name, _) => entry.claimed name
  | none => entry

namespace Grammar

variable {g h : Grammar}

/-- What is left of a grammar that rejects an edit: all of it, but for the claims of the edit. -/
structure Rejects (g : Grammar) (edit : Edit) (h : Grammar) : Prop where
  productions : h.productions = g.productions
  start : h.start = g.start
  accept : h.accept = g.accept
  entries : ∀ s entry, g.entry? s = some entry → h.entry? s = some (edit.claim entry)

theorem Rejects.unchanged {edit : Edit} (unasked : edit.rule? = none) : g.Rejects edit g :=
  ⟨rfl, rfl, rfl, fun _ _ known => by simpa [Edit.claim, unasked] using known⟩

theorem WellFormed.rejects_append (wf : g.WellFormed) {edit : Edit} {name : String}
    {rhs : List String} {generated : Bool} (asked : edit.rule? = some (name, rhs)) {e : Fault}
    (rejected : g.append name rhs generated false = (.error e, h)) : g.Rejects edit h := by
  have more := wf.enlarges_append name rhs generated
  rw [rejected] at more
  obtain ⟨new, productions, none⟩ := more.productions
  obtain rfl : new = [] := by simpa [Except.isOk, Except.toBool] using none
  refine ⟨by simpa using productions, more.start, more.accept, fun s entry known => ?_⟩
  rw [Edit.claim, asked]
  exact wf.entry?_append_rejected rejected known

/-- An answer is dropped, a fault is not. -/
theorem eq_error_of_map {α : Type} {edited : Edited α} {e : Fault}
    (rejected : (edited.map (·.map fun _ => ()) id : Edited Unit) = (.error e, h)) :
    edited = (.error e, h) := by
  obtain ⟨result, after⟩ := edited
  cases result with
  | error e' => simpa [Except.map] using rejected
  | ok a => simp [Except.map] at rejected

theorem WellFormed.rejects_perform (wf : g.WellFormed) {edit : Edit} {e : Fault}
    (rejected : g.perform edit = (.error e, h)) : g.Rejects edit h := by
  cases edit with
  | addTerminal name =>
    cases wf.eq_of_addTerminal_rejected (eq_error_of_map rejected)
    exact .unchanged rfl
  | addNonterminal name =>
    cases wf.eq_of_addNonterminal_rejected (eq_error_of_map rejected)
    exact .unchanged rfl
  | addAuthored name rhs => exact wf.rejects_append rfl (eq_error_of_map rejected)
  | addGenerated name rhs => exact wf.rejects_append rfl (eq_error_of_map rejected)
  | startFrom name =>
    cases eq_of_startFrom_rejected rejected
    exact .unchanged rfl
  | augment =>
    cases (wf.augment_rejected rejected).1
    exact .unchanged rfl

/-! ## Words that are lost -/

/-- The words that derive from the start symbol. A start name that no nonterminal has generates
nothing. -/
def language (g : Grammar) : Language String :=
  {names | ∃ s, g.startSymbol? = some s ∧ g.isNonterminal s ∧ names ∈ g.sentences s}

/-- The edit asks for a production of an implicit terminal of that name. -/
def Promotes (g : Grammar) (edit : Edit) (name : String) : Prop :=
  (∃ rhs, edit.rule? = some (name, rhs)) ∧ ∃ s, g.entry? s = some ⟨name, .implicit⟩

theorem claim_eq {edit : Edit} {entry : SymbolEntry} (known : g.entry? s = some entry)
    (spared : ¬ g.Promotes edit entry.name) : edit.claim entry = entry := by
  obtain ⟨name, kind⟩ := entry
  unfold Edit.claim
  split
  next other rhs asked =>
    simp only [SymbolEntry.claimed, ite_eq_right_iff]
    rintro ⟨rfl, rfl⟩
    exact absurd ⟨⟨rhs, asked⟩, s, known⟩ spared
  next => rfl

theorem WellFormed.claim_of_promotes (wf : g.WellFormed) {edit : Edit} {entry : SymbolEntry}
    (known : g.entry? s = some entry) (promoted : g.Promotes edit entry.name) :
    edit.claim entry = ⟨entry.name, .nonterminal⟩ ∧ entry.kind = .implicit := by
  obtain ⟨⟨rhs, asked⟩, t, implicit⟩ := promoted
  obtain ⟨name, kind⟩ := entry
  cases Named.unique wf.distinct ⟨_, known⟩ ⟨_, implicit⟩
  cases known.symm.trans implicit
  simp [Edit.claim, asked, SymbolEntry.claimed]

namespace Rejects

variable {edit : Edit} {c : Symbol} (rejects : g.Rejects edit h) (wf : g.WellFormed)

include rejects

theorem derives_iff {α β : List Symbol} : h.Derives α β ↔ g.Derives α β := by
  constructor <;> intro derives
  · exact derives.mono (by simp [rejects.productions])
  · exact derives.mono (by simp [rejects.productions])

theorem name_eq (known : ∃ name, g.Named c name) : h.name c = g.name c := by
  obtain ⟨name, kind, entry⟩ := known
  have after := rejects.entries c _ entry
  have named : (edit.claim ⟨name, kind⟩).name = name := by
    unfold Edit.claim
    split <;> simp
  have before : g.Named c name := ⟨kind, entry⟩
  have still : h.Named c (edit.claim ⟨name, kind⟩).name := ⟨_, after⟩
  rw [before.name_eq, still.name_eq, named]

include wf

/-- Of the symbols that were there, those that are promoted are terminals no longer. -/
theorem isTerminal_iff (known : ∃ name, g.Named c name) :
    h.isTerminal c ↔ g.isTerminal c ∧ ¬ g.Promotes edit (g.name c) := by
  obtain ⟨name, kind, entry⟩ := known
  have after := rejects.entries c _ entry
  have named : g.name c = name := Named.name_eq ⟨kind, entry⟩
  rw [named]
  by_cases promoted : g.Promotes edit name
  · obtain ⟨claimed, -⟩ := wf.claim_of_promotes entry promoted
    simp [Grammar.isTerminal, kind?_of_entry after, claimed, promoted, Symbol.Kind.isTerminal]
  · rw [claim_eq entry promoted] at after
    simp [Grammar.isTerminal, kind?_of_entry after, kind?_of_entry entry, promoted]

theorem mem_sentences_iff (known : ∃ name, g.Named s name) {names : List String} :
    names ∈ h.sentences s ↔ names ∈ g.sentences s ∧ ∀ name ∈ names, ¬ g.Promotes edit name := by
  have each {word : List Symbol} (derives : g.Derives [s] word) :
      ((∀ c ∈ word, h.isTerminal c) ↔
        (∀ c ∈ word, g.isTerminal c) ∧ ∀ name ∈ word.map g.name, ¬ g.Promotes edit name) ∧
      word.map h.name = word.map g.name := by
    have inside := derives.named wf (by simpa using known)
    constructor
    · simp only [List.forall_mem_map, ← forall₂_and]
      exact forall₂_congr fun c member => rejects.isTerminal_iff wf (inside c member)
    · exact List.map_congr_left fun c member => rejects.name_eq (inside c member)
  constructor
  · rintro ⟨word, derives, terminals, rfl⟩
    have derives := rejects.derives_iff.mp derives
    obtain ⟨kept, same⟩ := each derives
    obtain ⟨terminals, spared⟩ := kept.mp terminals
    rw [same]
    exact ⟨⟨word, derives, terminals, rfl⟩, spared⟩
  · rintro ⟨⟨word, derives, terminals, rfl⟩, spared⟩
    obtain ⟨kept, same⟩ := each derives
    exact ⟨word, rejects.derives_iff.mpr derives, kept.mpr ⟨terminals, spared⟩, same⟩

/-- What is settled stays. -/
theorem entry?_of_settled {name : String} {kind : Symbol.Kind} (settled : kind ≠ .implicit)
    (known : g.entry? s = some ⟨name, kind⟩) : h.entry? s = some ⟨name, kind⟩ := by
  have spared : ¬ g.Promotes edit name := by
    intro promoted
    exact settled (wf.claim_of_promotes known promoted).2
  rw [rejects.entries s _ known, claim_eq known spared]

/-- The start symbol of a grammar that generates something has a production, so it is the one there
was before. -/
theorem mem_language_iff (after : h.WellFormed) {names : List String} :
    names ∈ h.language ↔ names ∈ g.language ∧ ∀ name ∈ names, ¬ g.Promotes edit name := by
  constructor
  · rintro ⟨s, start, nonterminal, sentence⟩
    have ⟨word, derives, terminals, _⟩ := sentence
    obtain ⟨p, member, rfl⟩ : ∃ p ∈ h.productions, p.lhs = s := by
      rcases derives.singleton_cases with rfl | found
      · exact absurd (terminals s (by simp)) (not_isTerminal_of_isNonterminal nonterminal)
      · exact found
    have left := wf.left p (rejects.productions ▸ member)
    obtain ⟨name, chosen, found⟩ := Option.bind_eq_some_iff.mp start
    -- the name of the start symbol is that of the production
    obtain rfl : p.name = name := by
      rw [← Named.name_eq (after.symbol?_iff.mp found)]
      exact (Named.name_eq ⟨_, after.left p member⟩).symm
    have start : g.startSymbol? = some p.lhs := by
      rw [startSymbol?, ← rejects.start, chosen]
      exact wf.symbol?_iff.mpr ⟨_, left⟩
    obtain ⟨sentence, spared⟩ := (rejects.mem_sentences_iff wf ⟨_, _, left⟩).mp sentence
    exact ⟨⟨p.lhs, start, (isNonterminal_iff wf.aligned).mpr ⟨_, left⟩, sentence⟩, spared⟩
  · rintro ⟨⟨s, start, nonterminal, sentence⟩, spared⟩
    obtain ⟨name, chosen, found⟩ := Option.bind_eq_some_iff.mp start
    obtain ⟨other, entry⟩ := (isNonterminal_iff wf.aligned).mp nonterminal
    have kept := rejects.entry?_of_settled wf (by decide) entry
    obtain rfl : other = name := by
      rw [← Named.name_eq (wf.symbol?_iff.mp found)]
      exact (Named.name_eq ⟨_, entry⟩).symm
    refine ⟨s, ?_, (isNonterminal_iff after.aligned).mpr ⟨_, kept⟩, ?_⟩
    · rw [startSymbol?, rejects.start, chosen]
      exact after.symbol?_iff.mpr ⟨_, kept⟩
    · exact (rejects.mem_sentences_iff wf ⟨_, _, entry⟩).mpr ⟨sentence, spared⟩

/-- Everything stays just if no implicit terminal is promoted. -/
theorem entries_kept_iff : (∀ s entry, g.entry? s = some entry → h.entry? s = some entry) ↔
    ∀ name, ¬ g.Promotes edit name := by
  constructor
  · intro kept name promoted
    obtain ⟨-, s, known⟩ := id promoted
    have claimed := (wf.claim_of_promotes known promoted).1
    have after := (rejects.entries s _ known).symm.trans (kept s _ known)
    rw [claimed] at after
    cases after
  · intro spared s entry known
    rw [rejects.entries s entry known, claim_eq known (spared entry.name)]

end Rejects

/-- Rejected edits: in every state that edits lead to, an edit that is rejected leaves the
productions, the start name and the accept production as they are. Of the symbols there were it
leaves all as they are, unless it asks for a production of an implicit terminal: that one is a
nonterminal from then on, and the words it occurs in are generated no longer. -/
theorem rejected_promotes (edits : List Edit) {edit : Edit} {e : Fault}
    (rejected : (empty.run edits).perform edit = (.error e, h)) :
    (empty.run edits).Rejects edit h ∧
    ((∀ s entry, entry? (empty.run edits) s = some entry → entry? h s = some entry) ↔
      ∀ name, ¬ (empty.run edits).Promotes edit name) ∧
    h.language = {names | names ∈ (empty.run edits).language ∧
      ∀ name ∈ names, ¬ (empty.run edits).Promotes edit name} := by
  have built := Built.empty.run edits
  have wf := built.wellFormed
  have after : h.WellFormed := by
    have left := (built.perform edit).wellFormed
    rwa [rejected] at left
  have rejects := wf.rejects_perform rejected
  exact ⟨rejects, rejects.entries_kept_iff wf, Set.ext fun names => rejects.mem_language_iff wf after⟩

/-- The edits that make the grammar `S -> a`, in which `a` is an implicit terminal. -/
def lettered : List Edit := [.addAuthored "S" ["a"], .startFrom "S"]

/-- Asking for `a -> EOF` is rejected, and whatever has an `a` in it is lost. -/
theorem rejected_promotes_lettered : ∃ h,
    (empty.run lettered).perform (.addAuthored "a" [endName]) =
      (.error (.reservedName endName), h) ∧
    h.language = {names | names ∈ (empty.run lettered).language ∧
      ∀ name ∈ names, ¬ (empty.run lettered).Promotes (.addAuthored "a" [endName]) name} := by
  have rejected : (empty.run lettered).perform (.addAuthored "a" [endName]) =
      (.error (.reservedName endName), _) := rfl
  exact ⟨_, rejected, (rejected_promotes lettered rejected).2.2⟩

/-- That edit turns `a` into a nonterminal, and the grammar that had the sentence `a` has it no
longer. -/
theorem lettered_loses : ∃ h, (empty.run lettered).perform (.addAuthored "a" [endName]) =
      (.error (.reservedName endName), h) ∧
    entry? (empty.run lettered) ⟨2⟩ = some ⟨"a", .implicit⟩ ∧
    entry? h ⟨2⟩ = some ⟨"a", .nonterminal⟩ ∧
    ["a"] ∈ (empty.run lettered).language ∧ ["a"] ∉ h.language := by
  have built := Built.empty.run lettered
  have rejected : (empty.run lettered).perform (.addAuthored "a" [endName]) =
      (.error (.reservedName endName), _) := rfl
  have rejects := built.wellFormed.rejects_perform rejected
  have after : WellFormed _ := (built.perform (.addAuthored "a" [endName])).wellFormed
  have letter : entry? (empty.run lettered) ⟨2⟩ = some ⟨"a", .implicit⟩ := rfl
  refine ⟨_, rejected, letter, rfl, ⟨⟨1⟩, rfl, rfl, [⟨2⟩], ?derives, by decide, rfl⟩, fun found => ?lost⟩
  case derives =>
    have step : (empty.run lettered).Rewrites [⟨1⟩] [⟨2⟩] :=
      .replace [] [] (p := ⟨0, ⟨1⟩, "S", [⟨2⟩], ["a"], false⟩) (by decide)
    exact .single step
  case lost =>
    obtain ⟨-, spared⟩ := (rejects.mem_language_iff built.wellFormed after).mp found
    exact spared "a" (by simp) ⟨⟨_, rfl⟩, _, letter⟩

end Grammar

end ShiftReduce
