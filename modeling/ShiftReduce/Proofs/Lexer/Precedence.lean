import ShiftReduce.Proofs.Lexer.Segmentation
import ShiftReduce.Proofs.Parser.Decisions

/-!
# Rules appended to a lexer

A rule that is appended gets what the rules before it leave: text that none of them matches, or none
as much of. Main statement: both lexers apply the same rules to a text up to the first place where
the appended one is applied, and all along if there is none.
-/
namespace ShiftReduce

/-- A further rule is preferred to those of a lexer: in its own mode, where none of them matches or,
if the longest match counts, where each matches less. -/
def ReadyRule.Overtakes (r : ReadyRule) (l : Lexer) (rest : List Char) (mode : String) : Prop :=
  r.rule.mode = mode ∧ ∃ n, r.reach rest = some n ∧
    match l.preference with
    | .earliest => ∀ q ∈ l.rules, q.rule.mode = mode → q.reach rest = none
    | .longest => ∀ q ∈ l.rules, q.rule.mode = mode → ∀ k, q.reach rest = some k → k < n

namespace Lexer

/-- The lexer with one more rule behind its own. -/
def followedBy (l : Lexer) (r : ReadyRule) : Lexer := { l with rules := l.rules ++ [r] }

variable {l : Lexer} {r : ReadyRule} {rest : List Char} {mode : String}

/-! ## One choice -/

@[simp] theorem preference_followedBy (l : Lexer) (r : ReadyRule) :
    (l.followedBy r).preference = l.preference := rfl

theorem candidates_followedBy (l : Lexer) (r : ReadyRule) (rest : List Char) (mode : String) :
    (l.followedBy r).candidates rest mode = l.candidates rest mode ++
      (if r.rule.mode = mode then (r.reach rest).map (r.rule, ·) else none).toList := by
  unfold candidates followedBy
  rw [List.filterMap_append]
  cases found : (if r.rule.mode = mode then (r.reach rest).map (r.rule, ·) else none) <;> simp [found]

theorem mem_candidates {c : LexRule × Nat} : c ∈ l.candidates rest mode ↔
    ∃ q ∈ l.rules, q.rule.mode = mode ∧ q.reach rest = some c.2 ∧ q.rule = c.1 := by
  rw [candidates, List.mem_filterMap]
  refine exists_congr fun q => and_congr_right fun _ => ?_
  by_cases active : q.rule.mode = mode
  · rw [if_pos active, Option.map_eq_some_iff]
    constructor
    · rintro ⟨n, reached, rfl⟩
      exact ⟨active, reached, rfl⟩
    · rintro ⟨-, reached, same⟩
      exact ⟨c.2, reached, by rw [same]⟩
  · simp [active]

theorem longest_concat_of_longer {cs : List (LexRule × Nat)} {c : LexRule × Nat}
    (longer : ∀ d ∈ cs, d.2 < c.2) : longest (cs ++ [c]) = some c := by
  induction cs with
  | nil => rfl
  | cons first rest ih =>
    obtain ⟨more, longer⟩ := List.forall_mem_cons.mp longer
    rw [List.cons_append, longest, ih longer]
    exact if_pos more

/-- A last match does not count if an earlier one is as long. -/
theorem longest_concat_of_le {cs : List (LexRule × Nat)} {c d : LexRule × Nat} (member : d ∈ cs)
    (le : c.2 ≤ d.2) : longest (cs ++ [c]) = longest cs := by
  induction cs generalizing d with
  | nil => cases member
  | cons first rest ih =>
    rw [List.cons_append, longest, longest]
    by_cases longer : ∀ d ∈ rest, d.2 < c.2
    · -- then the earlier one is the first of all, and no other is longer than that
      have first_le : c.2 ≤ first.2 := by
        rcases List.mem_cons.mp member with rfl | later
        · exact le
        · exact absurd (longer d later) (Nat.not_lt.mpr le)
      rw [longest_concat_of_longer longer]
      cases best : longest rest with
      | none => exact if_neg (Nat.not_lt.mpr first_le)
      | some b =>
        have shorter := longer b (mem_of_longest best)
        dsimp only
        rw [if_neg (by omega), if_neg (by omega)]
    · obtain ⟨e, later, le⟩ : ∃ e ∈ rest, c.2 ≤ e.2 := by simpa using longer
      rw [ih later le]

theorem overtakes_iff {n : Nat} (active : r.rule.mode = mode) (reached : r.reach rest = some n) :
    r.Overtakes l rest mode ↔
      match l.preference with
      | .earliest => l.candidates rest mode = []
      | .longest => ∀ c ∈ l.candidates rest mode, c.2 < n := by
  unfold ReadyRule.Overtakes
  simp only [active, reached, Option.some.injEq, exists_eq_left', true_and]
  cases l.preference with
  | longest =>
    constructor
    · intro less c member
      obtain ⟨q, known, same, found, -⟩ := mem_candidates.mp member
      exact less q known same c.2 found
    · intro less q known same k found
      exact less (q.rule, k) (mem_candidates.mpr ⟨q, known, same, found, rfl⟩)
  | earliest =>
    rw [List.eq_nil_iff_forall_not_mem]
    constructor
    · intro none c member
      obtain ⟨q, known, same, found, -⟩ := mem_candidates.mp member
      rw [none q known same] at found
      cases found
    · intro none q known same
      cases found : q.reach rest with
      | none => rfl
      | some k =>
        exact absurd (mem_candidates.mpr ⟨q, known, same, found, rfl⟩) (none (q.rule, k))

/-- A further rule is chosen where it is preferred to the others. -/
theorem choose_followedBy (overtakes : r.Overtakes l rest mode) : ∃ n, r.reach rest = some n ∧
    (l.followedBy r).choose rest mode = some (r.rule, n) := by
  obtain ⟨active, n, reached, -⟩ := id overtakes
  have preferred := (overtakes_iff active reached).mp overtakes
  refine ⟨n, reached, ?_⟩
  unfold choose
  rw [preference_followedBy, candidates_followedBy, if_pos active, reached]
  cases same : l.preference with
  | longest =>
    rw [same] at preferred
    exact longest_concat_of_longer preferred
  | earliest =>
    rw [same] at preferred
    have none : l.candidates rest mode = [] := preferred
    rw [none]
    rfl

/-- Elsewhere a further rule changes nothing. -/
theorem choose_followedBy_of_not (behind : ¬ r.Overtakes l rest mode) :
    (l.followedBy r).choose rest mode = l.choose rest mode := by
  unfold choose
  rw [preference_followedBy, candidates_followedBy]
  by_cases active : r.rule.mode = mode
  · cases reached : r.reach rest with
    | none => simp [active]
    | some n =>
      have behind := mt (overtakes_iff active reached).mpr behind
      rw [if_pos active]
      cases same : l.preference with
      | longest =>
        rw [same] at behind
        obtain ⟨c, member, le⟩ : ∃ c ∈ l.candidates rest mode, n ≤ c.2 := by simpa using behind
        exact longest_concat_of_le member le
      | earliest =>
        rw [same] at behind
        obtain ⟨c, others, found⟩ := List.exists_cons_of_ne_nil behind
        rw [found]
        rfl
  · simp [active]

/-- Nothing is read past the end of a text. -/
theorem not_overtakes_nil : ¬ r.Overtakes l [] mode := by
  rintro ⟨-, n, reached, -⟩
  have bound := ReadyRule.reach_le reached
  obtain ⟨_, -, found⟩ := List.exists_of_findSome?_eq_some reached
  have positive : 0 < n := by simpa using (Option.filter_eq_some_iff.mp found).2
  simp at bound
  omega

/-- If the earliest rule counts, none behind those that match is applied. -/
theorem not_overtakes_of_choose {c : LexRule × Nat} (earliest : l.preference = .earliest)
    (chosen : l.choose rest mode = some c) : ¬ r.Overtakes l rest mode := by
  rintro ⟨-, n, -, unmatched⟩
  rw [earliest] at unmatched
  obtain ⟨q, known, active, reached, -⟩ := mem_candidates.mp (mem_candidates_of_choose chosen)
  rw [unmatched q known active] at reached
  cases reached

end Lexer

namespace Scanner

/-! ## Two scanners side by side -/

/-- The scanner at the same place, with another lexer. -/
def withLexer (s : Scanner) (l : Lexer) : Scanner := { s with lexer := l }

variable {s t u : Scanner} {l : Lexer} {r : ReadyRule} {ms ns : List RuleMatch} {m : RuleMatch}
  {tokens given : List Token} {discarded : Option Pending} {failure : Option Unmatched}

theorem consume_withLexer (s : Scanner) (l : Lexer) (m : RuleMatch) :
    (s.withLexer l).consume m = ((s.consume m).1, (s.consume m).2.withLexer l) := by
  unfold consume withLexer
  dsimp only
  split_ifs <;> rfl

theorem ahead?_withLexer (same : l.choose s.rest s.mode = s.lexer.choose s.rest s.mode) :
    (s.withLexer l).ahead? = s.ahead? := by
  have choice : (s.withLexer l).lexer.choose (s.withLexer l).rest (s.withLexer l).mode =
      s.lexer.choose s.rest s.mode := same
  rw [ahead?, ahead?, choice]
  rfl

theorem Ends.withLexer {last : List Token} (ends : s.Ends last discarded failure)
    (same : l.choose s.rest s.mode = s.lexer.choose s.rest s.mode) :
    (s.withLexer l).Ends last discarded failure := by
  cases ends with
  | closed read => exact .closed read
  | failed unread stuck => exact .failed unread ((ahead?_withLexer same).trans stuck)

theorem Scans.lexer_eq (scans : s.Scans ms tokens t) : t.lexer = s.lexer := by
  induction scans with
  | rest => rfl
  | step _ _ _ ih => exact ih.trans (consume_spec _ _).2.1

/-- A run goes on from wherever it has come to. -/
theorem Scans.resume {last : List Token} (whole : s.Scans ms tokens t)
    (ends : t.Ends last discarded failure) (front : s.Scans ns given u) :
    ∃ later more, ms = ns ++ later ∧ tokens = given ++ more ∧ u.Scans later more t := by
  induction front generalizing ms tokens with
  | rest s => exact ⟨ms, tokens, rfl, rfl, whole⟩
  | @step s u m ns given unread found front ih =>
    cases whole with
    | rest =>
      -- a run does not end where it can be continued
      cases ends with
      | closed read => exact absurd read unread
      | failed _ stuck => rw [stuck] at found; cases found
    | step _ found' whole =>
      obtain rfl := Option.some.inj (found.symm.trans found')
      obtain ⟨later, more, rfl, rfl, scans⟩ := ih whole
      exact ⟨later, more, rfl, by rw [List.append_assoc], scans⟩

/-- A scanner ends in one way only. -/
theorem Ends.unique {last last' : List Token} {discarded' : Option Pending}
    {failure' : Option Unmatched} (first : s.Ends last discarded failure)
    (second : s.Ends last' discarded' failure') :
    last = last' ∧ discarded = discarded' ∧ failure = failure' := by
  cases first with
  | closed read =>
    cases second with
    | closed => exact ⟨rfl, rfl, rfl⟩
    | failed unread => exact absurd read unread
  | failed unread stuck =>
    cases second with
    | closed read => exact absurd read unread
    | failed => exact ⟨rfl, rfl, rfl⟩

/-- Nothing is scanned behind the end of a run. -/
theorem Ends.eq_of_scans {last : List Token} (ends : s.Ends last discarded failure)
    (scans : s.Scans ms tokens t) : ms = [] ∧ tokens = [] ∧ t = s := by
  cases scans with
  | rest => exact ⟨rfl, rfl, rfl⟩
  | step unread found =>
    cases ends with
    | closed read => exact absurd read unread
    | failed _ stuck => rw [stuck] at found; cases found

/-- The further rule is applied at the place that a scanner has come to. -/
abbrev Overtaken (s : Scanner) (r : ReadyRule) : Prop := r.Overtakes s.lexer s.rest s.mode

/-- As long as the further rule is not applied, it changes nothing. -/
theorem Scans.followedBy (scans : s.Scans ms tokens t)
    (behind : ∀ ns given u, s.Scans ns given u → ns.length < ms.length → ¬ u.Overtaken r) :
    (s.withLexer (s.lexer.followedBy r)).Scans ms tokens (t.withLexer (s.lexer.followedBy r)) := by
  induction scans with
  | rest s => exact .rest _
  | @step s t m ms tokens unread found scans ih =>
    have here : ¬ s.Overtaken r := behind [] [] s (.rest s) (by simp)
    have lexer := (s.consume_spec m).2.1
    have found' : (s.withLexer (s.lexer.followedBy r)).ahead? = some m :=
      (ahead?_withLexer (Lexer.choose_followedBy_of_not here)).trans found
    have later := ih fun ns given u front shorter =>
      behind (m :: ns) _ u (.step unread found front) (by simpa using shorter)
    rw [lexer] at later
    have consumed := consume_withLexer s (s.lexer.followedBy r) m
    have step := Scans.step (s := s.withLexer (s.lexer.followedBy r)) unread found'
      (by rw [consumed]; exact later)
    rwa [consumed] at step

end Scanner

namespace Lexer

variable {engine : Regex.Engine} {l extended : Lexer} {r : ReadyRule} {rule : LexRule}
  {text : String}
  {ms : List RuleMatch} {given last : List Token} {s : Scanner} {discarded : Option Pending}
  {failure : Option Unmatched}

/-! ## Two readings of a text -/

/-- Reading a text is one run to its end. -/
theorem tokenization_run (l : Lexer) (text : String) : ∃ ms made t last discarded failure,
    (l.scan text).Scans ms made t ∧ t.Ends last discarded failure ∧
      l.tokenization text = ⟨made ++ last, ms, discarded, failure⟩ := by
  have enough : (l.scan text).rest.length < text.length + 1 := Nat.lt_succ_self _
  obtain ⟨ms, made, t, last, discarded, failure, scans, ends, drained⟩ :=
    Scanner.drain_ends (text.length + 1) [] [] (s := l.scan text) rfl enough
  exact ⟨ms, made, t, last, discarded, failure, scans, ends, drained⟩

/-- What a run applies and makes is the beginning of what reading the whole text gives. -/
theorem tokenization_of_scans (scans : (l.scan text).Scans ms given s) :
    ∃ later more, (l.tokenization text).matched = ms ++ later ∧
      (l.tokenization text).tokens = given ++ more := by
  obtain ⟨_, _, t, last, _, _, whole, ends, read⟩ := l.tokenization_run text
  obtain ⟨later, more, rfl, rfl, -⟩ := whole.resume ends scans
  rw [read]
  exact ⟨later, more ++ last, rfl, List.append_assoc given more last⟩

theorem tokenization_of_ends (scans : (l.scan text).Scans ms given s)
    (ends : s.Ends last discarded failure) :
    l.tokenization text = ⟨given ++ last, ms, discarded, failure⟩ := by
  obtain ⟨_, _, t, last', _, _, whole, ends', read⟩ := l.tokenization_run text
  obtain ⟨later, more, rfl, rfl, onward⟩ := whole.resume ends' scans
  obtain ⟨rfl, rfl, rfl⟩ := ends.eq_of_scans onward
  obtain ⟨rfl, rfl, rfl⟩ := ends.unique ends'
  rw [read, List.append_nil, List.append_nil]

theorem scan_followedBy (l : Lexer) (r : ReadyRule) (text : String) :
    (l.followedBy r).scan text = (l.scan text).withLexer (l.followedBy r) := rfl

/-- Up to where the further rule is applied for the first time, it changes nothing. -/
theorem scans_followedBy (scans : (l.scan text).Scans ms given s)
    (behind : ∀ ns made u, (l.scan text).Scans ns made u → ns.length < ms.length →
      ¬ r.Overtakes l u.rest u.mode) :
    ((l.followedBy r).scan text).Scans ms given (s.withLexer (l.followedBy r)) := by
  rw [scan_followedBy]
  refine scans.followedBy fun ns made u front shorter => ?_
  rw [Scanner.Overtaken, front.lexer_eq]
  exact behind ns made u front shorter

/-- A further rule that is never applied changes nothing at all. -/
theorem tokenization_followedBy (behind : ∀ ms given s, (l.scan text).Scans ms given s →
    ¬ r.Overtakes l s.rest s.mode) : (l.followedBy r).tokenization text = l.tokenization text := by
  obtain ⟨ms, given, s, last, discarded, failure, scans, ends, read⟩ := l.tokenization_run text
  have same : (l.followedBy r).choose s.rest s.mode = s.lexer.choose s.rest s.mode := by
    rw [scans.lexer_eq]
    exact choose_followedBy_of_not (behind ms given s scans)
  have scans' := scans_followedBy scans fun ns made u front _ => behind ns made u front
  rw [read, tokenization_of_ends scans' (ends.withLexer same)]

/-- Where the further rule is applied for the first time, it is what the run goes on with. -/
theorem tokenization_followedBy_of_overtakes (scans : (l.scan text).Scans ms given s)
    (behind : ∀ ns made u, (l.scan text).Scans ns made u → ns.length < ms.length →
      ¬ r.Overtakes l u.rest u.mode) (overtakes : r.Overtakes l s.rest s.mode) :
    ∃ n later, r.reach s.rest = some n ∧ ((l.followedBy r).tokenization text).matched =
      ms ++ ⟨r.rule, s.offset, s.rest.take n, s.mode⟩ :: later := by
  obtain ⟨n, reached, chosen⟩ := choose_followedBy overtakes
  have unread : s.rest ≠ [] := by
    intro read
    rw [read] at overtakes
    exact not_overtakes_nil overtakes
  have found : (s.withLexer (l.followedBy r)).ahead? =
      some ⟨r.rule, s.offset, s.rest.take n, s.mode⟩ := congrArg (Option.map _) chosen
  have further := (scans_followedBy scans behind).trans (.step unread found (.rest _))
  obtain ⟨later, -, matched, -⟩ := tokenization_of_scans further
  exact ⟨n, later, reached, by rw [matched, List.append_assoc, List.singleton_append]⟩

/-- If the earliest rule counts, a further rule has no place in a text that can be read without. -/
theorem not_overtakes_of_read (earliest : l.preference = .earliest) {made : List Token}
    (read : l.tokens text = .ok made) (scans : (l.scan text).Scans ms given s) :
    ¬ r.Overtakes l s.rest s.mode := by
  obtain ⟨_, _, t, last, _, failure, whole, ends, run⟩ := l.tokenization_run text
  have unfailed : failure = none := by
    rw [Lexer.tokens, run] at read
    cases failure with
    | none => rfl
    | some e => cases read
  subst unfailed
  obtain ⟨later, more, -, -, onward⟩ := whole.resume ends scans
  cases onward with
  | rest =>
    cases ends with
    | closed read =>
      rw [read]
      exact not_overtakes_nil
  | step unread found _ =>
    obtain ⟨c, chosen, -⟩ := Option.map_eq_some_iff.mp found
    rw [scans.lexer_eq] at chosen
    exact not_overtakes_of_choose earliest chosen

/-! ## Appending and removing -/

theorem tokens_eq_of_tokenization {l' : Lexer}
    (same : l'.tokenization text = l.tokenization text) : l'.tokens text = l.tokens text := by
  rw [tokens, tokens, same]

theorem tokenization_extend (earliest : l.preference = .earliest)
    (done : l.extend engine rule = .ok extended) {made : List Token}
    (read : l.tokens text = .ok made) :
    extended.tokenization text = l.tokenization text := by
  obtain ⟨-, -, -, ready, -, rfl⟩ := extend_spec done
  exact tokenization_followedBy fun _ _ _ scans => not_overtakes_of_read earliest read scans

/-- A rule is removed as it was appended. -/
theorem without_extend (done : l.extend engine rule = .ok extended) :
    extended.without rule.name = l := by
  obtain ⟨-, fresh, -, ready, made, rfl⟩ := extend_spec done
  have kept : ∀ q ∈ l.rules, decide (q.rule.name ≠ rule.name) = true := by
    intro q known
    have other := List.find?_eq_none.mp fresh q.rule (List.mem_map_of_mem known)
    simpa using other
  unfold without
  rw [List.filter_append, List.filter_eq_self.mpr kept]
  simp [ofRule_rule made]

theorem tokenization_extendAll {names : List String} (earliest : l.preference = .earliest)
    (done : Parser.extendAll engine l names = .ok extended) {made : List Token}
    (read : l.tokens text = .ok made) : extended.tokenization text = l.tokenization text := by
  induction names generalizing l with
  | nil =>
    cases done
    rfl
  | cons name names ih =>
    rw [Parser.extendAll, List.foldlM_cons] at done
    cases first : l.extend engine (.ofLiteral name) with
    | error e =>
      rw [first] at done
      cases done
    | ok next =>
      rw [first] at done
      have same := tokenization_extend earliest first read
      have preference : next.preference = .earliest := by
        obtain ⟨-, -, -, _, -, rfl⟩ := extend_spec first
        exact earliest
      exact (ih preference done ((tokens_eq_of_tokenization same).trans read)).trans same

end Lexer

/-- A rule that is appended changes the matches from the first place on where it is preferred to the
rules that were there, and nothing before; if there is no such place, the outcome is the same. Where
the earliest rule counts, this holds of every text that can be read without it, also for the rules
that a parser appends for terminals. To remove it gives the lexer back. -/
theorem Lexer.appended_rule_yields (engine : Regex.Engine) (l : Lexer) :
    (∀ rule extended, l.extend engine rule = .ok extended →
      (∃ r, ReadyRule.ofRule engine rule = .ok r ∧ ∀ text,
        ((∀ ms given s, (l.scan text).Scans ms given s → ¬ r.Overtakes l s.rest s.mode) →
          extended.tokenization text = l.tokenization text ∧
            extended.tokens text = l.tokens text) ∧
        ∀ ms given s, (l.scan text).Scans ms given s →
          (∀ ns made u, (l.scan text).Scans ns made u → ns.length < ms.length →
            ¬ r.Overtakes l u.rest u.mode) →
          ∃ later later' more more',
            (l.tokenization text).matched = ms ++ later ∧
            (extended.tokenization text).matched = ms ++ later' ∧
            (l.tokenization text).tokens = given ++ more ∧
            (extended.tokenization text).tokens = given ++ more' ∧
            (r.Overtakes l s.rest s.mode → ∃ n, r.reach s.rest = some n ∧
              later'.head? = some ⟨rule, s.offset, s.rest.take n, s.mode⟩)) ∧
      extended.without rule.name = l ∧
      (l.preference = .earliest → ∀ text made, l.tokens text = .ok made →
        extended.tokenization text = l.tokenization text ∧ extended.tokens text = .ok made)) ∧
    (l.preference = .earliest → ∀ g settings p, Parser.ofGrammar engine g l settings = .ok p →
      ∀ text made, l.tokens text = .ok made →
        p.lexer.tokenization text = l.tokenization text ∧ p.lexer.tokens text = .ok made) := by
  refine ⟨fun rule extended done => ⟨?_, without_extend done, ?_⟩, ?_⟩
  · obtain ⟨-, -, -, r, made, rfl⟩ := extend_spec done
    refine ⟨r, made, fun text => ⟨fun behind => ?_, fun ms given s scans behind => ?_⟩⟩
    · have same := tokenization_followedBy behind
      exact ⟨same, tokens_eq_of_tokenization same⟩
    · obtain ⟨later, more, matched, tokens⟩ := tokenization_of_scans scans
      obtain ⟨later', more', matched', tokens'⟩ :=
        tokenization_of_scans (scans_followedBy scans behind)
      refine ⟨later, later', more, more', matched, matched', tokens, tokens', fun overtakes => ?_⟩
      obtain ⟨n, behind', reached, applied⟩ :=
        tokenization_followedBy_of_overtakes scans behind overtakes
      have next := List.append_cancel_left (matched'.symm.trans applied)
      exact ⟨n, reached, by rw [next, ofRule_rule made, List.head?_cons]⟩
  · intro earliest text made read
    have same := tokenization_extend earliest done read
    exact ⟨same, (tokens_eq_of_tokenization same).trans read⟩
  · intro earliest g settings p made text tokens read
    obtain ⟨-, lexer, accept, done, -, rfl, -⟩ := Parser.ofGrammar_eq_ok_iff.mp made
    have same := tokenization_extendAll earliest done read
    exact ⟨same, (tokens_eq_of_tokenization same).trans read⟩

/-- Behind the rule for `ab`, one for `abc` is applied where it matches more, but not if the earliest
rule counts. -/
theorem Lexer.appended_rule_yields_prefix :
    let short : ReadyRule := ⟨.plain "AB" (.literal "ab"), [.literal "ab".toList]⟩
    let rule : LexRule := .plain "ABC" (.literal "abc")
    (∃ extended, extend .builtIn ⟨[short], .longest⟩ rule = .ok extended ∧
      extended.without "ABC" = ⟨[short], .longest⟩ ∧
      ∃ m later, (extended.tokenization "ababc").matched =
        m :: ⟨rule, 2, "abc".toList, initialMode⟩ :: later) ∧
    ∃ extended, extend .builtIn ⟨[short], .earliest⟩ rule = .ok extended ∧
      ∃ made, extended.tokens "abab" = .ok made := by
  intro short rule
  refine ⟨⟨_, rfl, ?_, ?_⟩, _, rfl, ?_⟩
  · exact ((appended_rule_yields .builtIn ⟨[short], .longest⟩).1 rule _ rfl).2.1
  · obtain ⟨⟨r, made, reading⟩, -⟩ :=
      (appended_rule_yields .builtIn ⟨[short], .longest⟩).1 rule _ rfl
    obtain rfl : r = ⟨rule, [.literal "abc".toList]⟩ := (Except.ok.inj made).symm
    have scans := Scanner.Scans.step (s := scan ⟨[short], .longest⟩ "ababc")
      (m := ⟨short.rule, 0, "ab".toList, initialMode⟩) (by decide) rfl (.rest _)
    obtain ⟨_, later, _, _, -, matched, -, -, next⟩ := (reading "ababc").2 _ _ _ scans (by
      rintro ns given u front shorter ⟨-, n, reached, -⟩
      obtain rfl := List.eq_nil_of_length_eq_zero (Nat.lt_one_iff.mp shorter)
      cases front
      cases reached)
    obtain ⟨n, reached, head⟩ := next ⟨rfl, 3, rfl, by
      rintro q known - k matched
      obtain rfl := List.mem_singleton.mp known
      cases matched
      decide⟩
    obtain rfl : 3 = n := Option.some.inj reached
    obtain ⟨tail, rfl⟩ := List.head?_eq_some_iff.mp head
    exact ⟨_, tail, matched⟩
  · have read : ∃ made, tokens ⟨[short], .earliest⟩ "abab" = .ok made := ⟨_, rfl⟩
    obtain ⟨made, read⟩ := read
    exact ⟨made,
      (((appended_rule_yields .builtIn ⟨[short], .earliest⟩).1 rule _ rfl).2.2 rfl "abab" made read).2⟩

end ShiftReduce
