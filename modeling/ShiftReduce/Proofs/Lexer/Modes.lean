import ShiftReduce.Proofs.Lexer.Extension
import ShiftReduce.Proofs.Lexer.Segmentation

/-!
# Modes along a reading

A match changes the modes as its rule says. Main statement: at every point of a reading the modes to
go back to are modes that the lexer has rules for, or the initial one; there is always one left, and
the one below all others is only ever replaced, and only while it stands alone.
-/
namespace ShiftReduce

namespace ModeStack

theorem toList_ne_nil (s : ModeStack) : s.toList ≠ [] := List.cons_ne_nil s.top s.below

/-- The mode below all others. -/
def bottom (s : ModeStack) : String := s.toList.getLast s.toList_ne_nil

/-- A change of mode puts nothing on the stack but the mode that it names. -/
theorem mem_change {s : ModeStack} {change : ModeChange} {mode : String}
    (member : mode ∈ (s.change change).toList) : mode ∈ s.toList ∨ change.target? = some mode := by
  obtain ⟨top, below⟩ := s
  cases change with
  | enter named =>
    rcases List.mem_cons.mp member with rfl | old
    · exact Or.inr rfl
    · exact Or.inl old
  | replace named =>
    rcases List.mem_cons.mp member with rfl | old
    · exact Or.inr rfl
    · exact Or.inl (List.mem_cons_of_mem top old)
  | leave =>
    cases below with
    | nil => exact Or.inl member
    | cons next below => exact Or.inl (List.mem_cons_of_mem top member)

/-- The bottom stays, unless it stands alone and is replaced. -/
theorem bottom_change (s : ModeStack) (change : ModeChange) :
    (s.change change).bottom = s.bottom ∨ (∃ mode, change = .replace mode) ∧ s.below = [] := by
  obtain ⟨top, below⟩ := s
  cases change with
  | enter named => exact Or.inl (List.getLast_cons (List.cons_ne_nil top below))
  | replace named =>
    cases below with
    | nil => exact Or.inr ⟨⟨named, rfl⟩, rfl⟩
    | cons next below =>
      -- what is replaced has another mode below it
      have others : next :: below ≠ [] := List.cons_ne_nil next below
      exact Or.inl ((List.getLast_cons others).trans (List.getLast_cons others).symm)
  | leave =>
    cases below with
    | nil => exact Or.inl rfl
    | cons next below => exact Or.inl (List.getLast_cons (List.cons_ne_nil next below)).symm

end ModeStack

namespace Lexer

variable {engine : Regex.Engine} {preference : Preference} {rules : List LexRule} {l : Lexer}

/-- The mode in which every text begins, or that of a rule. -/
def HasMode (l : Lexer) (mode : String) : Prop :=
  mode = initialMode ∨ ∃ rule ∈ l.ruleList, rule.mode = mode

/-- The lexer after some rules have been offered to it one after the other. -/
def offeredAll (engine : Regex.Engine) (l : Lexer) (rules : List LexRule) : Lexer :=
  rules.foldl (offered engine) l

/-- Rules that are accepted one by one could have been there from the beginning. -/
theorem exists_ofRules_offeredAll (built : ofRules engine preference rules = .ok l)
    (offers : List LexRule) :
    ∃ accepted, ofRules engine preference accepted = .ok (l.offeredAll engine offers) := by
  induction offers generalizing l rules with
  | nil => exact ⟨rules, built⟩
  | cons rule offers ih =>
    rw [offeredAll, List.foldl_cons, ← offeredAll]
    rcases extend_cases engine l rule with ⟨fault, -, refused⟩ | accepted
    · rw [offered, refused]
      exact ih built
    · exact ih ((extend_eq_ofRules built rule).symm.trans accepted)

/-- The rules change to modes of the lexer only. -/
def ModesClosed (l : Lexer) : Prop :=
  ∀ rule ∈ l.ruleList, ∀ change ∈ rule.change, ∀ mode ∈ change.target?, l.HasMode mode

theorem modesClosed_of_ofRules (built : ofRules engine preference rules = .ok l) :
    l.ModesClosed := by
  obtain ⟨-, modes, ready, made, rfl⟩ := ofRules_spec built
  have listed : ruleList ⟨ready, preference⟩ = rules := ruleList_of_mapM made
  intro rule member change changes mode named
  rw [listed] at member
  have known := checkModes_eq_ok_iff.mp modes rule member change changes mode named
  rw [HasMode, listed]
  exact (List.mem_cons.mp known).imp_right List.mem_map.mp

end Lexer

namespace Scanner

variable {engine : Regex.Engine} {s t : Scanner} {l : Lexer} {text : String} {m : RuleMatch}
  {ms : List RuleMatch}
  {tokens : List Token}

/-- What a scanner of a text comes to, after each match and after each request for a token. -/
inductive Point (l : Lexer) (text : String) : Scanner → Prop
  | scan : Point l text (l.scan text)
  | consume {s : Scanner} {m : RuleMatch} (before : Point l text s)
      (unfinished : s.finished = false) (unread : s.rest ≠ []) (found : s.ahead? = some m) :
      Point l text (s.consume m).2
  | next {s : Scanner} (before : Point l text s) : Point l text s.next.scanner

/-- The scanner reads with the lexer `l`, and in modes of `l` only. -/
structure Inhabits (s : Scanner) (l : Lexer) : Prop where
  lexer : s.lexer = l
  modes : ∀ mode ∈ s.modes.toList, l.HasMode mode

theorem inhabits_scan (l : Lexer) (text : String) : (l.scan text).Inhabits l where
  lexer := rfl
  modes _ member := Or.inl (List.mem_singleton.mp member)

/-! ## One match -/

theorem Inhabits.consume (inhabits : s.Inhabits l) (closed : l.ModesClosed) (unread : s.rest ≠ [])
    (found : s.ahead? = some m) : (s.consume m).2.Inhabits l where
  lexer := (s.consume_spec m).2.1.trans inhabits.lexer
  modes mode member := by
    -- what is matched is a rule of the lexer, so the mode it changes to is one of the lexer
    have known : m.rule ∈ l.ruleList := inhabits.lexer ▸ (ahead?_spec found unread).1
    rw [(s.consume_place m).2] at member
    cases changes : m.rule.change with
    | none =>
      rw [changes] at member
      exact inhabits.modes mode member
    | some change =>
      rw [changes] at member
      rcases ModeStack.mem_change member with old | named
      · exact inhabits.modes mode old
      · exact closed m.rule known change changes mode named

theorem bottom_consume (s : Scanner) (m : RuleMatch) :
    (s.consume m).2.modes.bottom = s.modes.bottom ∨
      (∃ mode, m.rule.change = some (.replace mode)) ∧ s.modes.below = [] := by
  rw [(s.consume_place m).2]
  cases changes : m.rule.change with
  | none => exact Or.inl rfl
  | some change =>
    refine (s.modes.bottom_change change).imp_right ?_
    rintro ⟨⟨mode, rfl⟩, alone⟩
    exact ⟨⟨mode, rfl⟩, alone⟩

/-! ## Any number of matches -/

theorem Scans.inhabits (scans : s.Scans ms tokens t) (closed : l.ModesClosed)
    (inhabits : s.Inhabits l) : t.Inhabits l := by
  induction scans with
  | rest s => exact inhabits
  | step unread found _ ih => exact ih (inhabits.consume closed unread found)

/-- A match that replaces the bottom while it stands alone is one of the matches `ms` from `s` on. -/
def ReplacesBottom (s : Scanner) (ms : List RuleMatch) : Prop :=
  ∃ before m after tokens u, ms = before ++ m :: after ∧ s.Scans before tokens u ∧
    u.ahead? = some m ∧ (∃ mode, m.rule.change = some (.replace mode)) ∧ u.modes.below = []

theorem Scans.bottom (scans : s.Scans ms tokens t) :
    t.modes.bottom = s.modes.bottom ∨ s.ReplacesBottom ms := by
  induction scans with
  | rest s => exact Or.inl rfl
  | @step s t m ms tokens unread found later ih =>
    -- the first match will do, or one of those behind it
    rcases s.bottom_consume m with same | ⟨replaced, alone⟩
    · rcases ih with kept | ⟨before, n, after, given, u, rfl, onward, found', replaced, alone⟩
      · exact Or.inl (kept.trans same)
      · exact Or.inr ⟨m :: before, n, after, _, u, rfl, .step unread found onward, found', replaced,
          alone⟩
    · exact Or.inr ⟨[], m, ms, [], s, rfl, .rest s, found, replaced, alone⟩

/-- Asking for a token applies matches, and changes neither the lexer nor the modes besides. -/
theorem scans_next (s : Scanner) : ∃ tokens t, s.Scans s.next.matched tokens t ∧
    s.next.scanner.lexer = t.lexer ∧ s.next.scanner.modes = t.modes := by
  unfold next
  split
  · exact ⟨[], s, .rest s, rfl, rfl⟩
  · have given : s.Gives [] (advance s.rest [] s) := gives_advance (Nat.le_refl _)
    generalize advance s.rest [] s = step at given
    cases given with
    | @token ms token t scans => exact ⟨[token], t, scans, rfl, rfl⟩
    | @closed ms t scans read => exact ⟨[], t, by simpa [close] using scans, rfl, rfl⟩
    | @failed ms t scans unread stuck => exact ⟨[], t, scans, rfl, rfl⟩

theorem Inhabits.next (inhabits : s.Inhabits l) (closed : l.ModesClosed) :
    s.next.scanner.Inhabits l := by
  obtain ⟨tokens, t, scans, lexer, modes⟩ := s.scans_next
  have after := scans.inhabits closed inhabits
  exact ⟨lexer.trans after.lexer, modes ▸ after.modes⟩

theorem Point.inhabits (point : Point l text s) (closed : l.ModesClosed) : s.Inhabits l := by
  induction point with
  | scan => exact inhabits_scan l text
  | consume _ _ unread found ih => exact ih.consume closed unread found
  | next _ ih => exact ih.next closed

/-- Modes along a reading: whatever rules have been offered to a lexer that was built from a list of
rules, at every point of a text there are modes, at least as many as in the beginning, and each of
them is the initial one or that of a rule. A match changes the bottom one only if its rule replaces
the mode while it stands alone, and asking for a token changes it only by such a match. -/
theorem modes_live {preference : Preference} {rules : List LexRule}
    (built : Lexer.ofRules engine preference rules = .ok l) (offers : List LexRule)
    (point : Point (l.offeredAll engine offers) text s) :
    s.modes.toList ≠ [] ∧
    (∀ mode ∈ s.modes.toList, mode = initialMode ∨
      ∃ rule ∈ (l.offeredAll engine offers).ruleList, rule.mode = mode) ∧
    ((l.offeredAll engine offers).scan text).modes.toList.length ≤ s.modes.toList.length ∧
    (∀ m, (s.consume m).2.modes.bottom ≠ s.modes.bottom →
      (∃ mode, m.rule.change = some (.replace mode)) ∧ s.modes.toList.length = 1) ∧
    (s.next.scanner.modes.bottom ≠ s.modes.bottom → s.ReplacesBottom s.next.matched) := by
  obtain ⟨accepted, grown⟩ := Lexer.exists_ofRules_offeredAll built offers
  refine ⟨s.modes.toList_ne_nil, (point.inhabits (Lexer.modesClosed_of_ofRules grown)).modes,
    Nat.succ_le_of_lt (List.length_pos_iff.mpr s.modes.toList_ne_nil), ?matched, ?asked⟩
  case matched =>
    intro m moved
    obtain ⟨replaced, alone⟩ := (s.bottom_consume m).resolve_left moved
    exact ⟨replaced, by rw [ModeStack.toList, alone, List.length_singleton]⟩
  case asked =>
    intro moved
    obtain ⟨tokens, t, scans, -, modes⟩ := s.scans_next
    rw [modes] at moved
    exact scans.bottom.resolve_left moved

/-- In the text `!a>` the mode `tag` takes the place of the initial one and is entered once more. A
rule that would enter a mode without rules has been refused. -/
theorem modes_live_tag :
    let bang : LexRule := { LexRule.plain "!" (.literal "!") with change := some (.replace "tag") }
    let word : LexRule := { LexRule.plain "a" (.literal "a") with
      mode := "tag", change := some (.enter "tag") }
    let lost : LexRule := { LexRule.plain "?" (.literal "?") with change := some (.enter "lost") }
    let back : LexRule := { LexRule.plain ">" (.literal ">") with
      mode := "tag", change := some .leave }
    ∃ l s, Lexer.ofRules .builtIn .longest [bang, word] = .ok l ∧
      s = (l.offeredAll .builtIn [lost, back]).scan "!a>" ∧
      (l.offeredAll .builtIn [lost, back]).ruleList.map (·.name) = ["!", "a", ">"] ∧
      s.next.scanner.modes.bottom ≠ s.modes.bottom ∧ s.ReplacesBottom s.next.matched ∧
      s.next.scanner.next.scanner.modes.toList = ["tag", "tag"] ∧
      ∀ mode ∈ s.next.scanner.next.scanner.modes.toList, mode = initialMode ∨
        ∃ rule ∈ (l.offeredAll .builtIn [lost, back]).ruleList, rule.mode = mode := by
  intro bang word lost back
  let start : Lexer := ⟨[⟨bang, [.literal ['!']]⟩, ⟨word, [.literal ['a']]⟩], .longest⟩
  let s : Scanner := (start.offeredAll .builtIn [lost, back]).scan "!a>"
  have built : Lexer.ofRules .builtIn .longest [bang, word] = .ok start := rfl
  have moved : s.next.scanner.modes.bottom ≠ s.modes.bottom := by decide +kernel
  refine ⟨start, s, built, rfl, rfl, moved, ?replaced, by decide +kernel, ?known⟩
  case replaced => exact (modes_live built [lost, back] .scan).2.2.2.2 moved
  case known => exact (modes_live built [lost, back] (.next (.next .scan))).2.1

end Scanner

end ShiftReduce
