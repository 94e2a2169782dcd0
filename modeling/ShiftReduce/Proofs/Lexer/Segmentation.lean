import Mathlib.Tactic.SplitIfs
import ShiftReduce.Proofs.Lexer.Reading

/-!
# Segments of a text

The matches of a text lie end to end, each chosen in the mode that the ones before it lead to. They
fall into segments: rules that hand their text on, up to the first one that does not. Main
statement: every segment gives one token, unless all its text is skipped; what is handed on at the
end of the text is lost; and reading stops at the end of the text or where no rule matches.
-/
namespace ShiftReduce

/-! ## Lengths of matches -/

/-- No pattern matches more than there is. -/
theorem Recogniser.reach_le {m : Recogniser} {rest : List Char} {n : Nat}
    (found : m.reach rest = some n) : n ≤ rest.length := by
  unfold reach at found
  split at found
  next text =>
    split at found
    next front =>
      cases found
      exact (List.isPrefixOf_iff_prefix.mp front).length_le
    next => cases found
  next matcher => exact matcher.within rest n found

theorem ReadyRule.reach_le {r : ReadyRule} {rest : List Char} {n : Nat}
    (found : r.reach rest = some n) : n ≤ rest.length := by
  obtain ⟨m, -, found⟩ := List.exists_of_findSome?_eq_some found
  exact Recogniser.reach_le (Option.filter_eq_some_iff.mp found).1

theorem Lexer.choose_le {l : Lexer} {rest : List Char} {mode : String} {rule : LexRule} {n : Nat}
    (chosen : l.choose rest mode = some (rule, n)) : n ≤ rest.length := by
  have member := mem_candidates_of_choose chosen
  obtain ⟨r, -, found⟩ := List.mem_filterMap.mp member
  split at found
  next =>
    obtain ⟨_, reached, same⟩ := Option.map_eq_some_iff.mp found
    cases same
    exact ReadyRule.reach_le reached
  next => cases found

/-! ## Segments -/

/-- What some matches read. -/
def textOf (ms : List RuleMatch) : List Char := ms.flatMap (·.text)

/-- What they read, without the text of `skip` rules. -/
def keptOf (ms : List RuleMatch) : List Char := textOf (ms.filter (!·.rule.skip))

/-- The modes after the changes that some matches make. -/
def modesAfter (ms : List RuleMatch) : ModeStack :=
  ms.foldl (fun modes m => (m.rule.change.map modes.change).getD modes) .initial

/-- Matches of rules that hand their text on, and the match that ends with them. -/
structure Segment where
  before : List RuleMatch
  last : RuleMatch
  handsOn : ∀ m ∈ before, m.rule.more
  ends : last.rule.more = false

namespace Segment

def matched (s : Segment) : List RuleMatch := s.before ++ [s.last]

/-- Where the first match of the segment starts. -/
def start (s : Segment) : Nat := (s.before.head?.getD s.last).start

/-- The token of a segment: named by the last match, with all text that is not skipped. There is
none if every match is skipped. -/
def token? (s : Segment) : Option Token :=
  if ∀ m ∈ s.matched, m.rule.skip then none
  else
    let text := String.ofList (keptOf s.matched)
    let value := match s.last.rule.transform with
      | some transform => transform text
      | none => .none
    some ⟨s.last.rule.name, text, ⟨s.start, s.last.stop⟩, value⟩

end Segment

/-- The match `m` lies right behind the matches `before` in a text, and is the one chosen there, in
the mode that they lead to. -/
def RuleMatch.Follows (m : RuleMatch) (l : Lexer) (text : List Char) (before : List RuleMatch) :
    Prop :=
  m.start = Text.byteLength (textOf before) ∧ m.mode = (modesAfter before).top ∧ m.text ≠ [] ∧
    ∃ rest, text = textOf before ++ m.text ++ rest ∧
      l.choose (m.text ++ rest) m.mode = some (m.rule, m.text.length)

namespace RuleMatch

variable {l : Lexer} {text : List Char} {before ms : List RuleMatch} {m : RuleMatch}

theorem Follows.bounds (follows : m.Follows l text before) :
    m.start ≤ Text.byteLength text ∧ m.stop ≤ Text.byteLength text := by
  obtain ⟨place, -, -, rest, same, -⟩ := follows
  have length := congrArg Text.byteLength same
  rw [Text.byteLength_append, Text.byteLength_append] at length
  rw [stop]
  omega

theorem follows_concat
    (old : ∀ before n after, ms = before ++ n :: after → RuleMatch.Follows n l text before)
    (new : m.Follows l text ms) (before : List RuleMatch) (n : RuleMatch) (after : List RuleMatch)
    (split : ms ++ [m] = before ++ n :: after) : n.Follows l text before := by
  rcases List.eq_nil_or_concat after with rfl | ⟨after, last, rfl⟩
  · obtain ⟨rfl, same⟩ := List.append_inj' split rfl
    cases same
    exact new
  · rw [List.concat_eq_append, ← List.cons_append, ← List.append_assoc] at split
    exact old before n after (List.append_inj' split rfl).1

end RuleMatch

section Matches

variable (ms ns : List RuleMatch) (m : RuleMatch)

@[simp] theorem textOf_append : textOf (ms ++ ns) = textOf ms ++ textOf ns :=
  List.flatMap_append

@[simp] theorem textOf_singleton : textOf [m] = m.text := by simp [textOf]

theorem keptOf_concat :
    keptOf (ms ++ [m]) = if m.rule.skip then keptOf ms else keptOf ms ++ m.text := by
  unfold keptOf
  rw [List.filter_append]
  split <;> simp_all

theorem modesAfter_concat :
    modesAfter (ms ++ [m]) = (m.rule.change.map (modesAfter ms).change).getD (modesAfter ms) := by
  simp [modesAfter]

variable {ms}

/-- Matches read something, so text is left unless all of it is skipped. -/
theorem keptOf_eq_nil_iff (filled : ∀ m ∈ ms, m.text ≠ []) :
    keptOf ms = [] ↔ ∀ m ∈ ms, m.rule.skip := by
  simp only [keptOf, textOf, List.flatMap_eq_nil_iff, List.mem_filter, Bool.not_eq_true', and_imp]
  constructor
  · intro nothing m member
    cases skip : m.rule.skip with
    | true => rfl
    | false => exact absurd (nothing m member skip) (filled m member)
  · intro skipped m member kept
    rw [skipped m member] at kept
    cases kept

end Matches

/-- What is pending behind matches that hand their text on. -/
def pendingOf : List RuleMatch → Option Pending
  | [] => none
  | m :: ms => some ⟨m.start, String.ofList (keptOf (m :: ms))⟩

/-- The text that a match joins starts with the first of the matches behind which it is pending. -/
theorem getD_pendingOf (ms : List RuleMatch) (m : RuleMatch) : (pendingOf ms).getD ⟨m.start, ""⟩ =
    ⟨(ms.head?.getD m).start, String.ofList (keptOf ms)⟩ := by
  cases ms <;> rfl

theorem pendingOf_concat (ms : List RuleMatch) (m : RuleMatch) : pendingOf (ms ++ [m]) =
    some ⟨(ms.head?.getD m).start, String.ofList (keptOf (ms ++ [m]))⟩ := by
  cases ms <;> rfl

namespace Scanner

/-! ## One match -/

/-- Reading on: the matches applied, the tokens that they complete, and the scanner behind them. -/
inductive Scans : Scanner → List RuleMatch → List Token → Scanner → Prop
  | rest (s : Scanner) : Scans s [] [] s
  | step {s t : Scanner} {m : RuleMatch} {ms : List RuleMatch} {tokens : List Token}
      (unread : s.rest ≠ []) (found : s.ahead? = some m)
      (later : Scans (s.consume m).2 ms tokens t) :
      Scans s (m :: ms) ((s.consume m).1.toList ++ tokens) t

/-- Matches fall into segments, which have given `tokens`, and others, whose text is pending. -/
def Segmented (ms : List RuleMatch) (pending : Option Pending) (tokens : List Token) : Prop :=
  ∃ (segments : List Segment) (trailing : List RuleMatch),
    ms = segments.flatMap Segment.matched ++ trailing ∧ (∀ m ∈ trailing, m.rule.more) ∧
      pending = pendingOf trailing ∧ tokens = segments.filterMap Segment.token?

/-- What a scanner has come to behind the matches `ms` of a text. -/
structure Behind (s : Scanner) (l : Lexer) (text : List Char) (ms : List RuleMatch)
    (tokens : List Token) : Prop where
  lexer : s.lexer = l
  source : s.source = text
  covers : text = textOf ms ++ s.rest
  offset : s.offset = Text.byteLength (textOf ms)
  modes : s.modes = modesAfter ms
  follows : ∀ before m after, ms = before ++ m :: after → m.Follows l text before
  segmented : Segmented ms s.pending tokens

variable {s t : Scanner} {l : Lexer} {text : List Char} {ms : List RuleMatch} {m : RuleMatch}
  {tokens : List Token}

theorem behind_scan (l : Lexer) (text : String) : (l.scan text).Behind l text.toList [] [] where
  lexer := rfl
  source := rfl
  covers := rfl
  offset := rfl
  modes := rfl
  follows before m after split := by simp at split
  segmented := ⟨[], [], rfl, by simp, rfl, rfl⟩

theorem consume_place (s : Scanner) (m : RuleMatch) : (s.consume m).2.offset = m.stop ∧
    (s.consume m).2.modes = (m.rule.change.map s.modes.change).getD s.modes := by
  unfold consume
  dsimp only
  constructor
  · split_ifs <;> rfl
  · cases m.rule.change <;> split_ifs <;> rfl

/-- The next match follows those before it. -/
theorem Behind.follows_ahead (behind : s.Behind l text ms tokens) (found : s.ahead? = some m) :
    m.Follows l text ms ∧ m.start = s.offset ∧
      m.text ++ s.rest.drop m.text.length = s.rest := by
  obtain ⟨⟨rule, length⟩, chosen, rfl⟩ := Option.map_eq_some_iff.mp found
  rw [behind.lexer] at chosen
  have bound := Lexer.choose_le chosen
  have taken : (s.rest.take length).length = length := List.length_take_of_le bound
  have whole : s.rest.take length ++ s.rest.drop (s.rest.take length).length = s.rest := by
    rw [taken]
    exact List.take_append_drop length s.rest
  have mode : s.mode = (modesAfter ms).top := by rw [mode, behind.modes]
  refine ⟨⟨behind.offset, mode, ?_, s.rest.drop length, ?_, ?_⟩, rfl, whole⟩
  · have positive := (Lexer.choose_spec chosen).2
    exact List.length_pos_iff.mp (by rw [taken]; exact positive)
  · rw [List.append_assoc, List.take_append_drop]
    exact behind.covers
  · rw [List.take_append_drop, taken]
    exact chosen

/-- The text that is pending behind a match, unless the match completes a token. -/
theorem joined {trailing : List RuleMatch} (pending : s.pending = pendingOf trailing) :
    (if m.rule.skip then (s.pending.getD ⟨m.start, ""⟩).text
      else (s.pending.getD ⟨m.start, ""⟩).text ++ String.ofList m.text) =
      String.ofList (keptOf (trailing ++ [m])) := by
  rw [pending, getD_pendingOf, keptOf_concat]
  split
  · rfl
  · exact String.ofList_append.symm

/-- A match of a rule that hands its text on joins the pending text. -/
theorem consume_of_more {trailing : List RuleMatch} (pending : s.pending = pendingOf trailing)
    (more : m.rule.more) : (s.consume m).1 = none ∧
      (s.consume m).2.pending = pendingOf (trailing ++ [m]) := by
  unfold consume
  dsimp only
  rw [if_pos more, joined pending, pending, getD_pendingOf, pendingOf_concat]
  exact ⟨rfl, rfl⟩

/-- A match of another rule ends a segment and gives its token. -/
theorem consume_of_ends (segment : Segment) (pending : s.pending = pendingOf segment.before)
    (filled : ∀ m ∈ segment.matched, m.text ≠ [])
    (short : segment.start ≤ Text.maxOffset ∧ segment.last.stop ≤ Text.maxOffset) :
    (s.consume segment.last).1 = segment.token? ∧ (s.consume segment.last).2.pending = none := by
  have empty : String.ofList (keptOf segment.matched) = "" ↔ ∀ m ∈ segment.matched, m.rule.skip := by
    rw [← keptOf_eq_nil_iff filled]
    simp
  have nothing : (segment.last.rule.skip ∧
      String.ofList (keptOf (segment.before ++ [segment.last])) = "") ↔
        ∀ m ∈ segment.matched, m.rule.skip := by
    refine (and_congr_right fun _ => empty).trans (and_iff_right_of_imp fun all => ?_)
    exact all segment.last (by simp [Segment.matched])
  have span : Text.Span.between (segment.before.head?.getD segment.last).start segment.last.stop =
      ⟨segment.start, segment.last.stop⟩ := by
    rw [Text.Span.between, Text.offset_of_le short.2]
    exact congrArg (Text.Span.mk · _) (Text.offset_of_le short.1)
  unfold consume Segment.token?
  dsimp only
  rw [segment.ends, joined pending, pending, getD_pendingOf, span]
  simp only [Bool.false_eq_true, if_false]
  by_cases all : ∀ m ∈ segment.matched, m.rule.skip
  · rw [if_pos (nothing.mpr all), if_pos all]
    exact ⟨rfl, rfl⟩
  · rw [if_neg (mt nothing.mp all), if_neg all]
    exact ⟨rfl, rfl⟩

/-- One more match goes on with the segment under way, or ends it. -/
theorem consume_segmented (segmented : Segmented ms s.pending tokens)
    (filled : ∀ n ∈ ms ++ [m], n.text ≠ [])
    (short : ∀ n ∈ ms ++ [m], n.start ≤ Text.maxOffset ∧ n.stop ≤ Text.maxOffset) :
    Segmented (ms ++ [m]) (s.consume m).2.pending (tokens ++ (s.consume m).1.toList) := by
  obtain ⟨segments, trailing, split, handsOn, pending, rfl⟩ := segmented
  cases more : m.rule.more with
  | true =>
    obtain ⟨incomplete, pending⟩ := consume_of_more pending more
    refine ⟨segments, trailing ++ [m], by rw [split, List.append_assoc], ?_, pending, ?_⟩
    · intro n member
      rcases List.mem_append.mp member with old | new
      · exact handsOn n old
      · exact List.mem_singleton.mp new ▸ more
    · rw [incomplete, Option.toList_none, List.append_nil]
  | false =>
    -- the matches that were trailing and this one make a segment
    let segment : Segment := ⟨trailing, m, handsOn, more⟩
    have within (n : RuleMatch) (member : n ∈ segment.matched) : n ∈ ms ++ [m] := by
      rw [split, List.append_assoc]
      exact List.mem_append_right _ member
    have first : (trailing.head?.getD m) ∈ segment.matched := by
      cases trailing <;> simp [segment, Segment.matched]
    obtain ⟨token, pending⟩ := consume_of_ends segment pending
      (fun n member => filled n (within n member))
      ⟨(short _ (within _ first)).1, (short m (by simp)).2⟩
    refine ⟨segments ++ [segment], [], ?_, by simp, pending, ?_⟩
    · rw [split, List.flatMap_append]
      simp [segment, Segment.matched]
    · rw [token, List.filterMap_append]
      cases given : segment.token? <;> simp [given]

theorem Behind.consume (behind : s.Behind l text ms tokens) (found : s.ahead? = some m)
    (short : Text.byteLength text ≤ Text.maxOffset) :
    (s.consume m).2.Behind l text (ms ++ [m]) (tokens ++ (s.consume m).1.toList) := by
  obtain ⟨next, start, whole⟩ := behind.follows_ahead found
  obtain ⟨rest, lexer, source, -⟩ := s.consume_spec m
  obtain ⟨offset, modes⟩ := s.consume_place m
  have follows := RuleMatch.follows_concat behind.follows next
  refine ⟨lexer.trans behind.lexer, source.trans behind.source, ?covers, ?offset, ?modes, follows,
    consume_segmented behind.segmented ?filled ?short⟩
  case covers =>
    rw [textOf_append, textOf_singleton, List.append_assoc, rest, whole]
    exact behind.covers
  case offset =>
    rw [offset, RuleMatch.stop, start, behind.offset, textOf_append, textOf_singleton,
      Text.byteLength_append]
  case modes => rw [modes, behind.modes, modesAfter_concat]
  case filled =>
    intro n member
    obtain ⟨before, after, split⟩ := List.append_of_mem member
    exact (follows before n after split).2.2.1
  case short =>
    intro n member
    obtain ⟨before, after, split⟩ := List.append_of_mem member
    have bounds := (follows before n after split).bounds
    exact ⟨Nat.le_trans bounds.1 short, Nat.le_trans bounds.2 short⟩

theorem Scans.behind (scans : s.Scans ms tokens t) {before : List RuleMatch} {given : List Token}
    (behind : s.Behind l text before given) (short : Text.byteLength text ≤ Text.maxOffset) :
    t.Behind l text (before ++ ms) (given ++ tokens) := by
  induction scans generalizing before given with
  | rest s => simpa using behind
  | @step s t m ms tokens unread found later ih =>
    have next := ih (behind.consume found short)
    rwa [List.append_assoc, List.append_assoc, List.singleton_append] at next

theorem Scans.finished (scans : s.Scans ms tokens t) : t.finished = s.finished := by
  induction scans with
  | rest => rfl
  | step _ _ _ ih => exact ih.trans (consume_spec _ _).2.2.2.1

/-- Every match reads something. -/
theorem Scans.length_le (scans : s.Scans ms tokens t) :
    t.rest.length + ms.length ≤ s.rest.length := by
  induction scans with
  | rest => simp
  | @step s t m ms tokens unread found later ih =>
    have positive := (ahead?_spec found unread).2
    have more := List.length_pos_iff.mpr unread
    rw [(s.consume_spec m).1, List.length_drop] at ih
    rw [List.length_cons]
    omega

theorem Scans.trans {u : Scanner} {ns : List RuleMatch} {later : List Token}
    (first : s.Scans ms tokens t) (second : t.Scans ns later u) :
    s.Scans (ms ++ ns) (tokens ++ later) u := by
  induction first with
  | rest => exact second
  | step unread found _ ih =>
    rw [List.cons_append, List.append_assoc]
    exact .step unread found (ih second)

/-! ## The end of a reading -/

/-- Where reading stops: the last token, the text that is lost there, and the error, if any. -/
inductive Ends (s : Scanner) : List Token → Option Pending → Option Unmatched → Prop
  | closed (read : s.rest = []) :
      Ends s [.endAt (Text.offset s.offset)] (s.pending.filter (·.text ≠ "")) none
  | failed (unread : s.rest ≠ []) (stuck : s.ahead? = none) : Ends s [] none (some s.noMatch)

/-- What asking `s` for a token comes to, when the rules `matched` were applied before. -/
inductive Gives (s : Scanner) (matched : List RuleMatch) : Advance → Prop
  | token {ms : List RuleMatch} {token : Token} {t : Scanner} (scans : s.Scans ms [token] t) :
      Gives s matched ⟨matched.reverse ++ ms, some (.ok token), none, t⟩
  | closed {ms : List RuleMatch} {t : Scanner} (scans : s.Scans ms [] t) (read : t.rest = []) :
      Gives s matched (t.close (ms.reverse ++ matched))
  | failed {ms : List RuleMatch} {t : Scanner} (scans : s.Scans ms [] t) (unread : t.rest ≠ [])
      (stuck : t.ahead? = none) : Gives s matched
        ⟨matched.reverse ++ ms, some (.error t.noMatch), none, { t with finished := true }⟩

theorem gives_advance {budget : List Char} {matched : List RuleMatch} {s : Scanner}
    (enough : s.rest.length ≤ budget.length) : s.Gives matched (advance budget matched s) := by
  fun_induction advance budget matched s with
  | case1 matched s => exact .closed (.rest s) (List.eq_nil_of_length_eq_zero (by simpa using enough))
  | case2 _ _ matched s read => exact .closed (.rest s) read
  | case3 _ _ matched s unread stuck =>
    have given : s.Gives matched _ := .failed (.rest s) unread stuck
    rwa [List.append_nil] at given
  | case4 _ _ matched s unread m found token after consumed =>
    have scans : s.Scans [m] [token] after := by
      simpa [consumed] using Scans.step unread found (.rest (s.consume m).2)
    have given : s.Gives matched _ := .token scans
    simpa using given
  | case5 _ budget matched s unread m found after consumed ih =>
    have positive := (ahead?_spec found unread).2
    have more := List.length_pos_iff.mpr unread
    have rest := (s.consume_spec m).1
    rw [consumed] at rest
    -- the match made no token: what follows is given behind it
    have onward {ms : List RuleMatch} {tokens : List Token} {t : Scanner}
        (scans : after.Scans ms tokens t) : s.Scans (m :: ms) tokens t := by
      simpa [consumed] using Scans.step unread found (by rwa [consumed])
    have later := ih (by rw [rest, List.length_drop]; rw [List.length_cons] at enough; omega)
    generalize advance budget (m :: matched) after = step at later ⊢
    cases later with
    | token scans =>
      have given : s.Gives matched _ := .token (onward scans)
      simpa using given
    | closed scans read =>
      have given : s.Gives matched _ := .closed (onward scans) read
      simpa using given
    | failed scans unread stuck =>
      have given : s.Gives matched _ := .failed (onward scans) unread stuck
      simpa using given

/-- Draining a scanner reads on until it ends. -/
theorem drain_ends (budget : Nat) (before : List Token) (matched : List RuleMatch) {s : Scanner}
    (unfinished : s.finished = false) (enough : s.rest.length < budget) :
    ∃ ms made t last discarded failure, s.Scans ms made t ∧ t.Ends last discarded failure ∧
      drain budget before matched s =
        ⟨before.reverse ++ made ++ last, matched.reverse ++ ms, discarded, failure⟩ := by
  induction budget generalizing before matched s with
  | zero => omega
  | succ budget ih =>
    have given : s.Gives [] s.next := by
      rw [next, if_neg (by simp [unfinished])]
      exact gives_advance (Nat.le_refl _)
    unfold drain
    generalize s.next = step at given ⊢
    cases given with
    | @token ms token t scans =>
      have still : t.finished = false := scans.finished.trans unfinished
      -- a token takes at least one character, which pays for its round
      have shorter : t.rest.length < s.rest.length := by
        have bound := scans.length_le
        have some' : ms ≠ [] := by
          rintro rfl
          cases scans
        have positive := List.length_pos_iff.mpr some'
        omega
      obtain ⟨ns, made, u, last, discarded, failure, onward, ends, drained⟩ :=
        ih (token :: before) (ms.reverse ++ matched) still (by omega)
      refine ⟨ms ++ ns, token :: made, u, last, discarded, failure, scans.trans onward, ends, ?_⟩
      simpa [still] using drained
    | @closed ms t scans read =>
      exact ⟨ms, [], t, _, _, _, scans, .closed read, by simp [close]⟩
    | @failed ms t scans unread stuck =>
      exact ⟨ms, [], t, _, _, _, scans, .failed unread stuck, by simp⟩

end Scanner

/-! ## All of a text -/

/-- The error in front of a character that no rule matches, behind the matches `ms` of a text. -/
def Unmatched.behind (text : List Char) (ms : List RuleMatch) (c : Char) (rest : List Char) :
    Unmatched where
  span := ⟨Text.byteLength (textOf ms), Text.byteLength (textOf ms) + c.utf8Size⟩
  position := Text.positionIn text (Text.byteLength (textOf ms))
  preview := Text.preview Scanner.previewLength (c :: rest)
  mode := if (modesAfter ms).top = initialMode then none else some (modesAfter ms).top

theorem Scanner.Behind.noMatch {s : Scanner} {l : Lexer} {text rest : List Char} {c : Char}
    {ms : List RuleMatch} {tokens : List Token} (behind : s.Behind l text ms tokens)
    (short : Text.byteLength text ≤ Text.maxOffset) (left : s.rest = c :: rest) :
    s.noMatch = .behind text ms c rest := by
  have total := congrArg Text.byteLength behind.covers
  rw [left, Text.byteLength_append, Text.byteLength_cons] at total
  have mode : s.mode = (modesAfter ms).top := by rw [Scanner.mode, behind.modes]
  have place : s.place = Text.byteLength (textOf ms) := by
    rw [Scanner.place, behind.offset]
    exact Text.offset_of_le (by omega)
  unfold Scanner.noMatch Unmatched.behind
  rw [mode, place, left, Scanner.lineTable, behind.source, behind.offset, Text.Span.between,
    Text.offset_of_le (by omega), Text.offset_of_le (by simp; omega)]
  simp [Text.positionIn]

/-- Segmentation: the matches of a text lie end to end from its beginning, each the one chosen
where it starts. Every segment of them gives one token, unless all of it is skipped. Reading ends
with the end of the text, or with an error at the first character that no match reaches. -/
theorem Lexer.tokenization_segmented (l : Lexer) (text : String)
    (short : Text.byteLength text.toList < UInt32.size) :
    ∃ (segments : List Segment) (trailing ms : List RuleMatch) (rest : List Char),
      ms = segments.flatMap Segment.matched ++ trailing ∧ (∀ m ∈ trailing, m.rule.more) ∧
      text.toList = textOf ms ++ rest ∧
      (∀ before m after, ms = before ++ m :: after → m.Follows l text.toList before) ∧
      (rest = [] ∧
          l.tokenization text = ⟨segments.filterMap Segment.token? ++
            [.endAt (Text.byteLength text.toList)], ms,
            (pendingOf trailing).filter (·.text ≠ ""), none⟩ ∧
          l.tokens text = .ok (segments.filterMap Segment.token? ++
            [.endAt (Text.byteLength text.toList)]) ∨
        ∃ c later, rest = c :: later ∧ l.choose rest (modesAfter ms).top = none ∧
          l.tokenization text = ⟨segments.filterMap Segment.token?, ms, none,
            some (.behind text.toList ms c later)⟩ ∧
          l.tokens text = .error (.behind text.toList ms c later)) := by
  have short : Text.byteLength text.toList ≤ Text.maxOffset := by
    rw [Text.maxOffset]
    omega
  have enough : (l.scan text).rest.length < text.length + 1 := by
    rw [← String.length_toList]
    exact Nat.lt_succ_self _
  obtain ⟨ms, made, t, last, discarded, failure, scans, ends, drained⟩ :=
    Scanner.drain_ends (text.length + 1) [] [] (s := l.scan text) rfl enough
  have behind : t.Behind l text.toList ms made := scans.behind (Scanner.behind_scan l text) short
  obtain ⟨segments, trailing, split, handsOn, pending, rfl⟩ := behind.segmented
  have drained : l.tokenization text = ⟨segments.filterMap Segment.token? ++ last, ms, discarded,
    failure⟩ := drained
  refine ⟨segments, trailing, ms, t.rest, split, handsOn, behind.covers, behind.follows, ?_⟩
  rw [tokens, drained]
  cases ends with
  | closed read =>
    have offset : t.offset = Text.byteLength text.toList := by
      rw [behind.covers, read, List.append_nil]
      exact behind.offset
    rw [pending, offset, Text.offset_of_le short]
    exact .inl ⟨read, rfl, rfl⟩
  | failed unread stuck =>
    obtain ⟨c, later, left⟩ := List.exists_cons_of_ne_nil unread
    rw [List.append_nil, behind.noMatch short left]
    refine .inr ⟨c, later, left, ?_, rfl, rfl⟩
    rw [Scanner.ahead?, Option.map_eq_none_iff, behind.lexer, Scanner.mode, behind.modes] at stuck
    exact stuck

/-- A lexer for words in quotes: what stands between quotes is read in a mode of its own. -/
def Lexer.quotes : Lexer :=
  let literal (text : String) (skip more : Bool) (mode : String) (change : Option ModeChange) :
      ReadyRule :=
    ⟨⟨text, [.literal text], skip, more, false, mode, change, none⟩, [.literal text.toList]⟩
  ⟨[literal " " true false initialMode none, literal "<" false true initialMode (some (.enter "word")),
    literal "a" false true "word" none, literal ">" false false "word" (some .leave)], .longest⟩

/-- In the text ` <a> <` the blanks are skipped and the quote opened last is lost. -/
theorem Lexer.tokenization_segmented_quotes : Text.byteLength " <a> <".toList < UInt32.size ∧
    ∃ (segments : List Segment) (trailing : List RuleMatch),
      (quotes.tokenization " <a> <").matched = segments.flatMap Segment.matched ++ trailing ∧
      (segments.filterMap Segment.token?).map (fun t => (t.name, t.text, t.span)) =
        [(">", "<a>", ⟨1, 4⟩)] ∧
      (pendingOf trailing).filter (·.text ≠ "") = some ⟨5, "<"⟩ := by
  have short : Text.byteLength " <a> <".toList < UInt32.size := by decide +kernel
  obtain ⟨segments, trailing, ms, rest, split, -, -, -, ⟨-, given, -⟩ | ⟨_, _, -, -, given, -⟩⟩ :=
    quotes.tokenization_segmented " <a> <" short
  · refine ⟨short, segments, trailing, (congrArg Tokenization.matched given).trans split, ?_, ?_⟩
    · have listed := congrArg (fun r : Tokenization => (r.tokens.dropLast).map
        (fun t => (t.name, t.text, t.span))) given
      rw [List.dropLast_concat] at listed
      exact listed.symm.trans (by decide +kernel)
    · exact (congrArg Tokenization.discarded given).symm.trans (by decide +kernel)
  · have failed := congrArg Tokenization.failure given
    exact absurd ((show none = (quotes.tokenization " <a> <").failure by decide +kernel).trans failed)
      (by simp)

end ShiftReduce
