import TerminalShell.Proofs.Channel.ChunkSize
import TerminalShell.Proofs.Inspector.Dialogue
import TerminalShell.Proofs.Inspector.ReportFraming

/-!
Where a dialogue can stand. A line goes to the shell, less what interrupts take from it, and a
report comes back; every step of either side leads from one of these stages to the next or leaves
the dialogue at its stage.
-/
namespace TerminalShell

namespace Channel.Terminal

def Emission.bytes : Emission → List UInt8
  | .data bytes => bytes
  | .signal => []

/-- The bytes that emissions put into a queue. -/
def emitted (left : List Emission) : List UInt8 := left.flatMap Emission.bytes

@[simp] theorem emitted_cons (e : Emission) (left : List Emission) :
    emitted (e :: left) = e.bytes ++ emitted left := rfl

theorem emitted_emissions (interruptByte : UInt8) (bytes : List UInt8) :
    emitted (emissions interruptByte bytes) = bytes.filter (· != interruptByte) := by
  induction bytes with
  | nil => rfl
  | cons b bytes ih =>
    by_cases hb : b = interruptByte
    · subst hb
      rw [emissions_cons_self]
      simpa [Emission.bytes] using ih
    · obtain ⟨piece, more, hp, hcons⟩ := emissions_cons_of_ne hb bytes
      rw [hp] at ih
      rw [hcons]
      simpa [Emission.bytes, hb] using ih

/-- The line feed at the end of a line is typed last. -/
theorem exists_emissions_eq_concat {interruptByte : UInt8} (h : interruptByte ≠ 10)
    (body : List UInt8) :
    ∃ front tail, emissions interruptByte (body ++ [10]) = front ++ [.data (tail ++ [10])] := by
  induction body with
  | nil => exact ⟨[], [], by simp [emissions, Text.pieces, Ne.symm h]⟩
  | cons b body ih =>
    obtain ⟨front, tail, ih⟩ := ih
    by_cases hb : b = interruptByte
    · subst hb
      exact ⟨.data [] :: .signal :: front, tail, by rw [List.cons_append, emissions_cons_self, ih]; rfl⟩
    · obtain ⟨piece, more, hp, hcons⟩ := emissions_cons_of_ne hb (body ++ [10])
      rw [List.cons_append, hcons]
      rw [hp] at ih
      cases front with
      | nil =>
        rw [List.nil_append, List.cons.injEq, Emission.data.injEq] at ih
        exact ⟨[], b :: tail, by rw [ih.1, ih.2]; rfl⟩
      | cons e front =>
        rw [List.cons_append, List.cons.injEq] at ih
        exact ⟨.data (b :: piece) :: front, tail, by rw [ih.2]; rfl⟩

/-- As long as a part of a line is to be typed, so is its line feed. -/
theorem feed_mem_emitted {interruptByte : UInt8} (h : interruptByte ≠ 10) {body : List UInt8}
    {left : List Emission} (hs : left <:+ emissions interruptByte (body ++ [10]))
    (hne : left ≠ []) : 10 ∈ emitted left := by
  obtain ⟨front, tail, hf⟩ := exists_emissions_eq_concat h body
  rw [hf] at hs
  have hlast : Emission.data (tail ++ [10]) ∈ left := by
    rcases List.suffix_concat_iff.mp hs with rfl | ⟨t, rfl, -⟩
    · exact absurd rfl hne
    · simp
  exact List.mem_flatMap.mpr ⟨_, hlast, by simp [Emission.bytes]⟩

end Channel.Terminal

namespace Inspector.Dialogue
open Channel Command

/-- What the shell takes a typed line for: the line less a return at its end, unless an interrupt
byte has broken it. -/
def Heard (interruptByte : UInt8) (line text : String) : Prop :=
  interruptByte ∉ Text.Utf8.encode line → text = Text.withoutReturn line

/-- An open dialogue about `lines` in which the lines `done` have been reported on. -/
structure Underway (interruptByte : UInt8) (lines done : List String) (d : Dialogue) : Prop where
  interruptByte_eq : d.terminal.interruptByte = interruptByte
  input_eq : ∃ queued interrupted, d.terminal.input = .opened queued interrupted
  output_eq : ∃ written, d.terminal.output = .opened written false
  heard : List.Forall₂ (Heard interruptByte) done d.answered
  quiet : (∀ line ∈ lines, interruptByte ∉ Text.Utf8.encode line) →
    d.terminal.input.isInterrupted = false

section Stages

variable (g : Grammar) (interruptByte : UInt8) (lines done : List String) (d : Dialogue)

/-- Nothing is on its way. -/
structure Idle : Prop extends Underway interruptByte lines done d where
  shell_eq : d.shellTask = .read
  screen_eq : d.screenTask = .proceed
  lines_eq : lines = done ++ d.later
  lineEnds_eq : d.lineEnds = done.length
  unread_eq : d.unread = []
  unseen_eq : d.unseen = []
  printed_eq : d.printed = d.answered.flatMap (Report.lines g)

/-- A line is on its way to the shell, less what interrupts have taken from it. -/
structure Asked (line : String) (left : List Terminal.Emission) (body : List UInt8) : Prop extends
    Underway interruptByte lines done d where
  shell_eq : d.shellTask = .read
  screen_eq : d.screenTask = .inspect left
  lines_eq : lines = done ++ line :: d.later
  left_suffix : left <:+ Terminal.emissions interruptByte (Text.Utf8.encode line ++ [10])
  notMem : 10 ∉ body
  unread_eq : d.unread ++ Terminal.emitted left = body ++ [10]
  plain : interruptByte ∉ Text.Utf8.encode line →
    body = Text.Utf8.encode line ∧ (left = [] ∨ d.unread = [])
  lineEnds_eq : d.lineEnds + (Terminal.emitted left).count 10 = done.length + 1
  unseen_eq : d.unseen = []
  printed_eq : d.printed = d.answered.flatMap (Report.lines g)

/-- The shell has taken a line for some text. -/
structure Taken (line text : String) : Prop extends Underway interruptByte lines done d where
  shell_eq : d.shellTask = .answer text
  screen_eq : d.screenTask = .inspect []
  lines_eq : lines = done ++ line :: d.later
  line_heard : Heard interruptByte line text
  lineEnds_eq : d.lineEnds = done.length + 1
  unread_eq : d.unread = []
  unseen_eq : d.unseen = []
  printed_eq : d.printed = d.answered.flatMap (Report.lines g)

/-- The last lines of a report and its end are on their way to the screen. -/
structure Told (rest : List String) : Prop extends Underway interruptByte lines done d where
  shell_eq : d.shellTask = .read
  screen_eq : d.screenTask = .inspect []
  lines_eq : lines = done ++ d.later
  lineEnds_eq : d.lineEnds = done.length
  unread_eq : d.unread = []
  unseen_eq : d.unseen = Text.Utf8.encodeLines (rest ++ [Report.endMark])
  content : ∀ text ∈ rest, Report.IsContent text
  printed_eq : d.printed ++ rest = d.answered.flatMap (Report.lines g)

/-- The screen is leaving or has left, and the shell has nothing to read any more. -/
structure Ended : Prop where
  input_eq : d.terminal.input = .closed
  pending_eq : d.shell.pending = []
  shell_eq : d.shellTask = .read ∨ d.shellTask = .stopped
  screen_eq : d.screenTask = .leave ∨ d.screenTask = .stopped none
  later_eq : d.later = []
  heard : List.Forall₂ (Heard interruptByte) lines d.answered
  lineEnds_eq : d.lineEnds = lines.length
  printed_eq : d.printed = d.answered.flatMap (Report.lines g)

/-- Where a dialogue about some lines can stand. -/
inductive Stage : Prop where
  | idle {done : List String} (h : d.Idle g interruptByte lines done)
  | asked {done : List String} {line : String} {left : List Terminal.Emission} {body : List UInt8}
      (h : d.Asked g interruptByte lines done line left body)
  | taken {done : List String} {line text : String}
      (h : d.Taken g interruptByte lines done line text)
  | told {done rest : List String} (h : d.Told g interruptByte lines done rest)
  | ended (h : d.Ended g interruptByte lines)

end Stages

section Steps

variable {g : Grammar} {interruptByte : UInt8} {lines done : List String} {d e : Dialogue}

theorem Underway.withInput {queued : List UInt8} {interrupted : Bool}
    (h : d.Underway interruptByte lines done)
    (ht : e.terminal = { d.terminal with input := .opened queued interrupted })
    (ha : e.answered = d.answered)
    (hi : (∀ line ∈ lines, interruptByte ∉ Text.Utf8.encode line) → interrupted = false) :
    e.Underway interruptByte lines done where
  interruptByte_eq := by rw [ht, h.interruptByte_eq]
  input_eq := ⟨queued, interrupted, by rw [ht]⟩
  output_eq := by simpa only [ht] using h.output_eq
  heard := by rw [ha]; exact h.heard
  quiet := by rw [ht]; exact hi

theorem Underway.withOutput {written : List UInt8} (h : d.Underway interruptByte lines done)
    (ht : e.terminal = { d.terminal with output := .opened written false })
    (ha : e.answered = d.answered) : e.Underway interruptByte lines done where
  interruptByte_eq := by rw [ht, h.interruptByte_eq]
  input_eq := by simpa only [ht] using h.input_eq
  output_eq := ⟨written, by rw [ht]⟩
  heard := by rw [ha]; exact h.heard
  quiet := by rw [ht]; exact h.quiet

/-- A shell for which nothing is on its way waits, or else learns of an interrupt at no cost. -/
theorem Underway.shellStep_of_unread_eq_nil (h : d.Underway interruptByte lines done)
    (ht : d.shellTask = .read) (hu : d.unread = []) (hs : d.shellStep g = some e) :
    e = d.setInput (.opened [] false) ∧ e.unread = [] ∧ e.Underway interruptByte lines done := by
  obtain ⟨queued, interrupted, hq⟩ := h.input_eq
  obtain ⟨hp, rfl⟩ : d.shell.pending = [] ∧ queued = [] := by
    simpa [unread, hq, ByteQueue.bytes] using hu
  obtain ⟨outcome, shell, input, hl, he⟩ := @shellStep_of_read g d ht
  rw [hq] at hl
  rw [he] at hs
  cases hl with
  | line _ hpending => simp [hp] at hpending
  | more _ hne heq => simp [hne] at heq
  | interrupted =>
    have hshell : { d.shell with pending := [] } = d.shell := by rw [← hp]
    rw [hshell] at hs
    cases hs
    refine ⟨rfl, ?_, h.withInput rfl rfl fun _ => rfl⟩
    simpa [unread, hear, setInput, ByteQueue.bytes] using hp
  | waiting => cases hs

/-- A screen for which nothing is on its way waits. -/
theorem Underway.screenStep_of_unseen_eq_nil (h : d.Underway interruptByte lines done)
    (ht : d.screenTask = .inspect []) (hu : d.unseen = []) : d.screenStep = none := by
  obtain ⟨written, hw⟩ := h.output_eq
  obtain ⟨hp, rfl⟩ : d.screen.pending = [] ∧ written = [] := by
    simpa [unseen, hw, ByteQueue.bytes] using hu
  obtain ⟨outcome, screen, output, hl, hs⟩ := screenStep_of_inspect ht
  rw [hw] at hl
  rw [hs]
  cases hl with
  | line _ hpending => simp [hp] at hpending
  | more _ hne heq => simp [hne] at heq
  | waiting => rfl

theorem Idle.shellStep (h : d.Idle g interruptByte lines done) (hs : d.shellStep g = some e) :
    e.Idle g interruptByte lines done := by
  obtain ⟨rfl, hunread, hunderway⟩ := h.shellStep_of_unread_eq_nil h.shell_eq h.unread_eq hs
  exact { h with
    toUnderway := hunderway
    unread_eq := hunread }

theorem Told.shellStep {rest : List String} (h : d.Told g interruptByte lines done rest)
    (hs : d.shellStep g = some e) : e.Told g interruptByte lines done rest := by
  obtain ⟨rfl, hunread, hunderway⟩ := h.shellStep_of_unread_eq_nil h.shell_eq h.unread_eq hs
  exact { h with
    toUnderway := hunderway
    unread_eq := hunread }

theorem exists_eq_append_feed {taken rest body : List UInt8} (h : 10 ∉ taken)
    (he : taken ++ rest = body ++ [10]) :
    ∃ body', body = taken ++ body' ∧ rest = body' ++ [10] := by
  rcases List.append_eq_append_iff.mp he with hb | ⟨more, rfl, hm⟩
  · exact hb
  · cases more with
    | nil => exact ⟨[], by simp, by simpa using hm.symm⟩
    | cons b more =>
      rw [List.cons_append, List.cons.injEq] at hm
      exact absurd (by simp [hm.1]) h

/-- The shell reads on, finds the line, or loses what it has of it. -/
theorem Asked.shellStep {line : String} {left : List Terminal.Emission} {body : List UInt8}
    (h : d.Asked g interruptByte lines done line left body) (hf : interruptByte ≠ 10)
    (hs : d.shellStep g = some e) : Stage g interruptByte lines e := by
  obtain ⟨queued, interrupted, hq⟩ := h.input_eq
  obtain ⟨outcome, shell, input, hl, he⟩ := @shellStep_of_read g d h.shell_eq
  have hu := h.unread_eq
  have hquiet := h.quiet
  rw [hq] at hl hquiet
  rw [he] at hs
  simp only [unread, hq, ByteQueue.bytes] at hu
  cases hl with
  | line hline hpending =>
    cases hs
    rw [hpending, List.append_assoc, List.append_assoc, List.cons_append] at hu
    obtain ⟨rfl, hrest⟩ := Text.firstLine_inj hline h.notMem hu
    simp only [List.append_eq_nil_iff] at hrest
    obtain ⟨rfl, rfl, hemitted⟩ := hrest
    obtain rfl : left = [] := by
      by_contra hne
      simpa [hemitted] using Terminal.feed_mem_emitted hf h.left_suffix hne
    exact .taken {
      toUnderway := h.withInput rfl rfl hquiet
      shell_eq := rfl
      screen_eq := h.screen_eq
      lines_eq := h.lines_eq
      line_heard := by
        intro hplain
        rw [(h.plain hplain).1, Text.dropReturn_encode_eq, Text.Utf8.decodeLenient_encode]
      lineEnds_eq := h.lineEnds_eq
      unread_eq := rfl
      unseen_eq := h.unseen_eq
      printed_eq := h.printed_eq }
  | @more _ taken rest _ _ _ heq =>
    cases hs
    have hunread : d.shell.pending ++ taken ++ rest = d.unread := by
      simp [unread, hq, ByteQueue.bytes, heq]
    exact .asked { h with
      toUnderway := h.withInput rfl rfl hquiet
      unread_eq := by rw [← h.unread_eq, ← hunread]; rfl
      plain := fun hplain => (h.plain hplain).imp_right (.imp_right (hunread.trans ·)) }
  | interrupted hpending =>
    cases hs
    rw [List.append_nil] at hu
    obtain ⟨body', rfl, hbody⟩ := exists_eq_append_feed hpending hu
    exact .asked { h with
      toUnderway := h.withInput rfl rfl fun _ => rfl
      notMem := fun hm => h.notMem (List.mem_append_right _ hm)
      unread_eq := hbody
      plain := by
        -- Of a line that has come whole, an interrupt finds nothing.
        intro hplain
        obtain ⟨hwhole, rfl | hnone⟩ := h.plain hplain
        · simp [Terminal.emitted] at hbody
        · obtain ⟨hp, -⟩ := List.append_eq_nil_iff.mp hnone
          rw [hp, List.nil_append] at hwhole
          exact ⟨hwhole, .inr rfl⟩ }
  | waiting => cases hs

theorem Taken.shellStep {line text : String} (h : d.Taken g interruptByte lines done line text)
    (hg : g.IsSound) (hs : d.shellStep g = some e) :
    e.Told g interruptByte lines (done ++ [line]) (Report.lines g text) := by
  obtain ⟨written, hw⟩ := h.output_eq
  simp only [Dialogue.shellStep, h.shell_eq, hw, ByteQueue.write, Option.some.injEq] at hs
  subst hs
  have hunseen : d.screen.pending = [] ∧ written = [] := by
    simpa [unseen, hw, ByteQueue.bytes] using h.unseen_eq
  exact {
    interruptByte_eq := h.interruptByte_eq
    input_eq := h.input_eq
    output_eq := ⟨_, rfl⟩
    heard := List.rel_append h.heard (.cons h.line_heard .nil)
    quiet := h.quiet
    shell_eq := rfl
    screen_eq := h.screen_eq
    lines_eq := by rw [List.append_assoc]; exact h.lines_eq
    lineEnds_eq := by rw [List.length_append]; exact h.lineEnds_eq
    unread_eq := h.unread_eq
    unseen_eq := by
      simp [unseen, setOutput, ByteQueue.bytes, hunseen, Report.encode_text]
    content := fun text ht => Report.isContent_of_mem_lines hg ht
    printed_eq := by simp [setOutput, h.printed_eq] }

theorem Ended.shellStep (h : d.Ended g interruptByte lines) (hs : d.shellStep g = some e) :
    e.Ended g interruptByte lines := by
  rcases h.shell_eq with ht | ht
  · obtain ⟨outcome, shell, input, hl, he⟩ := @shellStep_of_read g d ht
    rw [h.input_eq] at hl
    rw [he] at hs
    cases hl with
    | line _ hpending => simp [h.pending_eq] at hpending
    | flushed _ hne => exact absurd h.pending_eq hne
    | closed =>
      cases hs
      exact { h with
        input_eq := rfl
        shell_eq := .inr rfl }
  · simp [Dialogue.shellStep, ht] at hs

theorem Stage.shellStep (h : Stage g interruptByte lines d) (hg : g.IsSound)
    (hf : interruptByte ≠ 10) (hs : d.shellStep g = some e) : Stage g interruptByte lines e := by
  cases h with
  | idle h => exact .idle (h.shellStep hs)
  | asked h => exact h.shellStep hf hs
  | taken h => exact .told (h.shellStep hg hs)
  | told h => exact .told (h.shellStep hs)
  | ended h => exact .ended (h.shellStep hs)

theorem Idle.screenStep (h : d.Idle g interruptByte lines done) (hf : interruptByte ≠ 10)
    (hl : ∀ line ∈ lines, 10 ∉ Text.Utf8.encode line) (hs : d.screenStep = some e) :
    Stage g interruptByte lines e := by
  obtain ⟨queued, interrupted, hq⟩ := h.input_eq
  cases hlater : d.later with
  | nil =>
    simp only [Dialogue.screenStep, h.screen_eq, hlater, Option.some.injEq] at hs
    subst hs
    have hlines : lines = done := by simpa [hlater] using h.lines_eq
    exact .ended {
      input_eq := rfl
      pending_eq := (List.append_eq_nil_iff.mp h.unread_eq).1
      shell_eq := .inl h.shell_eq
      screen_eq := .inl rfl
      later_eq := hlater
      heard := hlines ▸ h.heard
      lineEnds_eq := hlines ▸ h.lineEnds_eq
      printed_eq := h.printed_eq }
  | cons line later =>
    have hlines : lines = done ++ line :: later := hlater ▸ h.lines_eq
    have hline : 10 ∉ Text.Utf8.encode line := hl line (by simp [hlines])
    have hfeed : Text.Utf8.encode (line ++ "\n") = Text.Utf8.encode line ++ [10] :=
      Text.Utf8.encode_append line "\n"
    have hemitted : Terminal.emitted
        (Terminal.emissions interruptByte (Text.Utf8.encode line ++ [10])) =
          (Text.Utf8.encode line).filter (· != interruptByte) ++ [10] := by
      simp [Terminal.emitted_emissions, Ne.symm hf]
    have hbody : 10 ∉ (Text.Utf8.encode line).filter (· != interruptByte) :=
      fun hm => hline (List.mem_of_mem_filter hm)
    simp only [Dialogue.screenStep, h.screen_eq, hlater, hq, ByteQueue.isClosed,
      h.interruptByte_eq, hfeed, Bool.false_eq_true, if_false, Option.some.injEq] at hs
    subst hs
    exact .asked {
      interruptByte_eq := h.interruptByte_eq
      input_eq := h.input_eq
      output_eq := h.output_eq
      heard := h.heard
      quiet := h.quiet
      shell_eq := h.shell_eq
      screen_eq := rfl
      lines_eq := hlines
      left_suffix := List.suffix_rfl
      notMem := hbody
      unread_eq := by
        rw [hemitted]
        exact congrArg (· ++ _) h.unread_eq
      plain := fun hplain => ⟨List.filter_eq_self.mpr fun b hb =>
        bne_iff_ne.mpr (ne_of_mem_of_not_mem hb hplain), .inr h.unread_eq⟩
      lineEnds_eq := by
        rw [hemitted, List.count_append, List.count_eq_zero_of_not_mem hbody]
        exact congrArg (· + 1) h.lineEnds_eq
      unseen_eq := h.unseen_eq
      printed_eq := h.printed_eq }

/-- The screen types on; when it has typed a line, it waits for the shell to take it. -/
theorem Asked.screenStep {line : String} {left : List Terminal.Emission} {body : List UInt8}
    (h : d.Asked g interruptByte lines done line left body) (hf : interruptByte ≠ 10)
    (hs : d.screenStep = some e) : ∃ left', e.Asked g interruptByte lines done line left' body := by
  obtain ⟨queued, interrupted, hq⟩ := h.input_eq
  cases left with
  | nil =>
    rw [h.screenStep_of_unseen_eq_nil h.screen_eq h.unseen_eq] at hs
    contradiction
  | cons emission left =>
    have hsuffix := (List.suffix_cons emission left).trans h.left_suffix
    have hquiet := h.quiet
    rw [hq] at hquiet
    -- Without interrupt bytes a line is typed at once.
    have hwhole (hplain : interruptByte ∉ Text.Utf8.encode line) :
        emission :: left = [.data (Text.Utf8.encode line ++ [10])] := by
      have hall : interruptByte ∉ Text.Utf8.encode line ++ [10] := by simp [hplain, hf]
      have hs := h.left_suffix
      rw [Terminal.emissions_of_notMem hall] at hs
      exact hs.eq_of_length_le (by simp)
    cases emission with
    | data bytes =>
      simp only [Dialogue.screenStep, h.screen_eq, hq, ByteQueue.write, Option.some.injEq] at hs
      subst hs
      exact ⟨left, { h with
        toUnderway := h.withInput rfl rfl hquiet
        screen_eq := rfl
        left_suffix := hsuffix
        unread_eq := by
          rw [← h.unread_eq]
          simp [unread, setInput, hq, ByteQueue.bytes, Terminal.Emission.bytes]
        plain := fun hplain => ⟨(h.plain hplain).1, .inl (List.cons.inj (hwhole hplain)).2⟩
        lineEnds_eq := by
          rw [← h.lineEnds_eq, Terminal.emitted_cons, List.count_append, ← Nat.add_assoc]
          rfl }⟩
    | signal =>
      simp only [Dialogue.screenStep, h.screen_eq, hq, ByteQueue.signalInterrupt,
        Option.some.injEq] at hs
      subst hs
      exact ⟨left, { h with
        toUnderway := h.withInput rfl rfl fun hall =>
          absurd (hwhole (hall line (by simp [h.lines_eq]))) (by simp)
        screen_eq := rfl
        left_suffix := hsuffix
        unread_eq := by
          rw [← h.unread_eq]
          simp [unread, setInput, hq, ByteQueue.bytes, Terminal.Emission.bytes]
        plain := fun hplain => absurd (hwhole hplain) (by simp)
        lineEnds_eq := h.lineEnds_eq }⟩

theorem Taken.screenStep {line text : String} (h : d.Taken g interruptByte lines done line text) :
    d.screenStep = none :=
  h.screenStep_of_unseen_eq_nil h.screen_eq h.unseen_eq

/-- The screen reads on and prints a line of the report, or comes to its end. -/
theorem Told.screenStep {rest : List String} (h : d.Told g interruptByte lines done rest)
    (hs : d.screenStep = some e) : Stage g interruptByte lines e := by
  obtain ⟨written, hw⟩ := h.output_eq
  obtain ⟨outcome, screen, output, hl, he⟩ := screenStep_of_inspect h.screen_eq
  have hu := h.unseen_eq
  rw [hw] at hl
  rw [he] at hs
  simp only [unseen, hw, ByteQueue.bytes] at hu
  cases hl with
  | @line _ piece left hpiece hpending =>
    have hfirst {text : String} {more : List String} (ht : Text.IsOneLine text)
        (hm : rest ++ [Report.endMark] = text :: more) :
        left ++ written = Text.Utf8.encodeLines more ∧
          Text.Utf8.decodeLenient (Text.dropReturn piece) = text := by
      rw [hm, hpending, List.append_assoc, List.cons_append, Text.Utf8.encodeLines_cons] at hu
      obtain ⟨rfl, hrest⟩ := Text.firstLine_inj hpiece ht.notMem_encode hu
      exact ⟨hrest, by rw [ht.dropReturn_encode, Text.Utf8.decodeLenient_encode]⟩
    cases rest with
    | nil =>
      obtain ⟨hnone, htext⟩ := hfirst (by decide) rfl
      rw [htext] at hs
      cases hs
      exact .idle { h with
        toUnderway := h.withOutput rfl rfl
        screen_eq := rfl
        unseen_eq := hnone
        printed_eq := (List.append_nil _).symm.trans h.printed_eq }
    | cons text rest =>
      obtain ⟨hcontent, hmore⟩ := List.forall_mem_cons.mp h.content
      obtain ⟨hnext, htext⟩ := hfirst hcontent.oneLine rfl
      rw [htext] at hs
      simp only [reduceCtorEq, if_false, see, hcontent.ne_endMark, Option.some.injEq] at hs
      subst hs
      exact .told { h with
        toUnderway := h.withOutput rfl rfl
        unseen_eq := hnext
        content := hmore
        printed_eq := (List.append_assoc ..).trans h.printed_eq }
  | @more _ taken left _ _ _ heq =>
    cases hs
    have hunseen : d.screen.pending ++ taken ++ left = d.unseen := by
      simp [unseen, hw, ByteQueue.bytes, heq]
    exact .told { h with
      toUnderway := h.withOutput rfl rfl
      unseen_eq := hunseen.trans h.unseen_eq }
  | waiting => cases hs

theorem Ended.screenStep (h : d.Ended g interruptByte lines) (hs : d.screenStep = some e) :
    e.Ended g interruptByte lines := by
  rcases h.screen_eq with ht | ht
  · simp only [Dialogue.screenStep, ht, Option.some.injEq] at hs
    subst hs
    exact { h with
      input_eq := h.input_eq
      screen_eq := .inr rfl }
  · simp [Dialogue.screenStep, ht] at hs

theorem Stage.screenStep (h : Stage g interruptByte lines d) (hf : interruptByte ≠ 10)
    (hl : ∀ line ∈ lines, 10 ∉ Text.Utf8.encode line) (hs : d.screenStep = some e) :
    Stage g interruptByte lines e := by
  cases h with
  | idle h => exact h.screenStep hf hl hs
  | asked h =>
    obtain ⟨left, h⟩ := h.screenStep hf hs
    exact .asked h
  | taken h =>
    rw [h.screenStep] at hs
    contradiction
  | told h => exact h.screenStep hs
  | ended h => exact .ended (h.screenStep hs)

theorem Stage.step (h : Stage g interruptByte lines d) (hg : g.IsSound) (hf : interruptByte ≠ 10)
    (hl : ∀ line ∈ lines, 10 ∉ Text.Utf8.encode line) {p : Party} (hs : d.step g p = some e) :
    Stage g interruptByte lines e := by
  cases p with
  | screen => exact h.screenStep hf hl hs
  | shell => exact h.shellStep hg hf hs

theorem Stage.reaches (h : Stage g interruptByte lines d) (hg : g.IsSound)
    (hf : interruptByte ≠ 10) (hl : ∀ line ∈ lines, 10 ∉ Text.Utf8.encode line)
    (hr : Reaches g d e) : Stage g interruptByte lines e := by
  induction hr with
  | refl => exact h
  | tail _ hs ih =>
    obtain ⟨p, hs⟩ := hs
    exact ih.step hg hf hl hs

end Steps

end Inspector.Dialogue

end TerminalShell
