import TerminalShell.Inspector.Program
import TerminalShell.Proofs.Inspector.TurnTaking

/-!
What a session prints. Without interrupt bytes each line gets the report on it, in order and with
nothing between, whatever the size of the reads and however the two sides run; and behind each
report the session is as it was at its start.
-/
namespace TerminalShell.Inspector
open Channel Command

/-- The reports on some lines, each taken without a return at its end. -/
def reportsOn (g : Grammar) (lines : List String) : List String :=
  lines.flatMap fun line => Report.lines g (Text.withoutReturn line)

theorem reportsOn_prefix (g : Grammar) {first lines : List String} (h : first <+: lines) :
    reportsOn g first <+: reportsOn g lines := by
  obtain ⟨rest, rfl⟩ := h
  exact ⟨reportsOn g rest, List.flatMap_append.symm⟩

/-- Texts without interrupt bytes are typed as lines without them. -/
theorem interruptByte_notMem_of_mem_typedLines {interruptByte : UInt8} {texts : List String}
    (hp : ∀ text ∈ texts, interruptByte ∉ Text.Utf8.encode text) :
    ∀ line ∈ texts.flatMap typedLines, interruptByte ∉ Text.Utf8.encode line := by
  intro line h hb
  obtain ⟨text, ht, h⟩ := List.mem_flatMap.mp h
  obtain ⟨piece, hpiece, rfl⟩ := List.mem_map.mp h
  obtain ⟨c, hc, hb⟩ := List.mem_flatMap.mp hb
  rw [String.toList_ofList] at hc
  exact hp text ht (List.mem_flatMap.mpr ⟨c, Text.mem_of_mem_pieces hpiece hc, hb⟩)

namespace Dialogue

variable {g : Grammar} {interruptByte : UInt8} {lines : List String} {d e : Dialogue}

/-- The session less all that is on its way. -/
def emptied (d : Dialogue) : Session where
  terminal := { interruptByte := d.terminal.interruptByte }
  shell := { d.shell with pending := [] }
  screen := { d.screen with pending := [] }

theorem emptied_shellStep (hs : d.shellStep g = some e) : e.emptied = d.emptied := by
  cases ht : d.shellTask with
  | read =>
    obtain ⟨outcome, shell, input, hl, he⟩ := @shellStep_of_read g d ht
    obtain ⟨task, hear, -⟩ := hear_eq { d.setInput input with shell } outcome
    rw [he] at hs
    split_ifs at hs
    rw [Option.some.injEq, hear] at hs
    subst hs
    simp only [emptied, setInput, hl.emptied]
  | answer line =>
    simp only [shellStep, ht] at hs
    split at hs <;> cases hs <;> rfl
  | stopped => simp [shellStep, ht] at hs

theorem emptied_screenStep (hs : d.screenStep = some e) : e.emptied = d.emptied := by
  cases ht : d.screenTask with
  | proceed =>
    simp only [screenStep, ht] at hs
    split at hs
    · cases hs
      rfl
    · split_ifs at hs <;> cases hs <;> rfl
  | inspect left =>
    cases left with
    | nil =>
      obtain ⟨outcome, screen, output, hl, he⟩ := screenStep_of_inspect ht
      obtain ⟨task, printed, see, -⟩ := @see_eq { d.setOutput output with screen } ht outcome
      rw [he] at hs
      split_ifs at hs
      rw [Option.some.injEq, see] at hs
      subst hs
      simp only [emptied, setOutput, hl.emptied]
    | cons emission left =>
      cases emission with
      | data bytes =>
        simp only [screenStep, ht] at hs
        split at hs <;> cases hs <;> rfl
      | signal =>
        simp only [screenStep, ht] at hs
        cases hs
        rfl
  | leave =>
    simp only [screenStep, ht] at hs
    cases hs
    rfl
  | stopped failure => simp [screenStep, ht] at hs

theorem emptied_reaches (h : Reaches g d e) : e.emptied = d.emptied := by
  induction h with
  | refl => rfl
  | tail _ hs ih =>
    obtain ⟨p, hs⟩ := hs
    cases p with
    | screen => exact (emptied_screenStep hs).trans ih
    | shell => exact (emptied_shellStep hs).trans ih

/-- Lines without interrupt bytes are heard as they are. -/
theorem flatMap_answered {done answered : List String}
    (h : List.Forall₂ (Heard interruptByte) done answered)
    (hp : ∀ line ∈ done, interruptByte ∉ Text.Utf8.encode line) :
    answered.flatMap (Report.lines g) = reportsOn g done := by
  induction h with
  | nil => rfl
  | cons hline _ ih =>
    obtain ⟨hfirst, hrest⟩ := List.forall_mem_cons.mp hp
    rw [List.flatMap_cons, hline hfirst, ih hrest]
    rfl

section Plain

variable (hp : ∀ line ∈ lines, interruptByte ∉ Text.Utf8.encode line)

include hp in
theorem Idle.printed_eq_reportsOn {done : List String} (h : d.Idle g interruptByte lines done) :
    d.printed = reportsOn g done :=
  h.printed_eq.trans (flatMap_answered h.heard fun line hm =>
    hp line (h.lines_eq ▸ List.mem_append_left _ hm))

include hp in
/-- Between two lines a session is as it was before it. -/
theorem Idle.session_eq {done : List String} (h : d.Idle g interruptByte lines done) :
    d.session = d.emptied := by
  obtain ⟨queued, interrupted, hq⟩ := h.input_eq
  obtain ⟨written, hw⟩ := h.output_eq
  obtain rfl : interrupted = false := by simpa [hq, ByteQueue.isInterrupted] using h.quiet hp
  obtain ⟨hshell, rfl⟩ : d.shell.pending = [] ∧ queued = [] := by
    simpa [unread, hq, ByteQueue.bytes] using h.unread_eq
  obtain ⟨hscreen, rfl⟩ : d.screen.pending = [] ∧ written = [] := by
    simpa [unseen, hw, ByteQueue.bytes] using h.unseen_eq
  calc d.session = ⟨⟨d.terminal.input, d.terminal.output, d.terminal.interruptByte⟩,
        { d.shell with pending := d.shell.pending },
        { d.screen with pending := d.screen.pending }⟩ := rfl
    _ = d.emptied := by
        rw [hq, hw, hshell, hscreen]
        rfl

include hp in
theorem Stage.printed_prefix (h : Stage g interruptByte lines d) :
    d.printed <+: reportsOn g lines := by
  have hdone {done : List String} (hh : List.Forall₂ (Heard interruptByte) done d.answered)
      (hl : done <+: lines) : d.answered.flatMap (Report.lines g) <+: reportsOn g lines := by
    rw [flatMap_answered hh fun line hm => hp line (hl.subset hm)]
    exact reportsOn_prefix g hl
  cases h with
  | idle h => exact h.printed_eq ▸ hdone h.heard ⟨_, h.lines_eq.symm⟩
  | asked h => exact h.printed_eq ▸ hdone h.heard ⟨_, h.lines_eq.symm⟩
  | taken h => exact h.printed_eq ▸ hdone h.heard ⟨_, h.lines_eq.symm⟩
  | told h => exact .trans ⟨_, h.printed_eq⟩ (hdone h.heard ⟨_, h.lines_eq.symm⟩)
  | ended h => exact h.printed_eq ▸ hdone h.heard List.prefix_rfl

end Plain

end Dialogue

variable {s : Settings} {lines texts : List String}

/-- A session whose lines are typed as they are shows the reports on them, and nothing stays. -/
theorem typeLines_start (hv : s.validate = .ok ())
    (hl : ∀ line ∈ lines, 10 ∉ Text.Utf8.encode line)
    (hp : ∀ line ∈ lines, s.terminal.interruptByte ∉ Text.Utf8.encode line) :
    Session.typeLines s.grammar lines (.start s) = (reportsOn s.grammar lines, .start s) := by
  obtain ⟨-, ⟨hf, -⟩, hg, -⟩ := Settings.validate_eq_ok_iff.mp hv
  have hstart : Dialogue.Stage s.grammar s.terminal.interruptByte lines (.start s lines) :=
    Dialogue.stage_start
  obtain ⟨e, hr, hs, hprinted, hlater, hc⟩ := hstart.reaches_typeLines hg hf hl rfl
    (List.append_nil lines).symm
  obtain ⟨done, hidle⟩ := (hstart.reaches hg hf hl hr).exists_idle hc
  obtain rfl : lines = done := by simpa [hlater] using hidle.lines_eq
  refine Prod.ext ?_ ?_
  · exact hprinted.symm.trans (hidle.printed_eq_reportsOn hp)
  · calc (Session.typeLines s.grammar lines (.start s)).2 = e.session := hs.symm
      _ = e.emptied := hidle.session_eq hp
      _ = .start s := Dialogue.emptied_reaches hr

/-- The program prints what a session shows of its arguments or else of its input. -/
theorem output_runWith {o : Options} (h : o.complete = none) (w : Surroundings) (s : Settings) :
    (runWith o w s).output = (Session.inspectAll s.grammar
      (if o.commands.isEmpty then (inputLines w.input).1 else o.commands) (.start s)).1 := by
  unfold runWith
  rw [h]
  dsimp only
  split_ifs <;> rfl

/-- Texts without interrupt bytes, given as arguments or as input, are answered line by line: each
line by exactly the report on it less a return at its end, after which both queues and both readers
are as empty as at the start. The size of the reads does not show, and neither does the order in
which the two sides run: at every point a part of the reports has been printed, between two lines
the reports on those before it and nothing is on its way, and it goes on until all is printed. -/
theorem session_prints_reports (hv : s.validate = .ok ())
    (hp : ∀ text ∈ texts, s.terminal.interruptByte ∉ Text.Utf8.encode text) :
    let lines := texts.flatMap typedLines
    (∀ o w, o.complete = none →
      (if o.commands.isEmpty then (inputLines w.input).1 else o.commands) = texts →
      (runWith o w s).output = reportsOn s.grammar lines) ∧
    Session.inspectAll s.grammar texts (.start s) = (reportsOn s.grammar lines, .start s) ∧
    (∀ line ∈ lines, Session.typeLine s.grammar line (.start s) =
      (Report.lines s.grammar (Text.withoutReturn line), .start s)) ∧
    (∀ n ≠ 0, (Session.inspectAll s.grammar texts
      (.start { s with terminal := { s.terminal with chunkSize := n } })).1 =
        reportsOn s.grammar lines) ∧
    ∀ turns, let d := (Dialogue.start s lines).run s.grammar turns
      d.printed <+: reportsOn s.grammar lines ∧
      (d.screenTask = .proceed → d.session = .start s ∧
        ∃ done, lines = done ++ d.later ∧ d.printed = reportsOn s.grammar done) ∧
      (d.screenStep = none → d.shellStep s.grammar = none →
        d.printed = reportsOn s.grammar lines) ∧
      ¬ ∃ run : ℕ → Dialogue, run 0 = d ∧
        ∀ n, ∃ p, (run n).step s.grammar p = some (run (n + 1)) := by
  intro lines
  have hl : ∀ line ∈ lines, 10 ∉ Text.Utf8.encode line := notMem_encode_of_mem_typedLines
  have hp : ∀ line ∈ lines, s.terminal.interruptByte ∉ Text.Utf8.encode line :=
    interruptByte_notMem_of_mem_typedLines hp
  have hall : Session.inspectAll s.grammar texts (.start s) =
      (reportsOn s.grammar lines, .start s) := by
    rw [Session.inspectAll_eq_typeLines]
    exact typeLines_start hv hl hp
  refine ⟨?_, hall, ?_, ?_, ?_⟩
  · intro o w hc ht
    rw [output_runWith hc, ht, hall]
  · intro line hm
    have hone : Session.typeLines s.grammar [line] (.start s) =
        (reportsOn s.grammar [line], .start s) :=
      typeLines_start hv (by simpa using hl line hm) (by simpa using hp line hm)
    simpa [Session.typeLines, reportsOn, Prod.ext_iff] using hone
  · intro n hn
    have hv' : ({ s with terminal := { s.terminal with chunkSize := n } } : Settings).validate =
        .ok () :=
      Settings.validate_eq_ok_iff.mpr ⟨hn, (Settings.validate_eq_ok_iff.mp hv).2⟩
    rw [Session.inspectAll_eq_typeLines]
    exact congrArg Prod.fst (typeLines_start hv' hl hp)
  · intro turns d
    obtain ⟨-, ⟨hf, -⟩, hg, -⟩ := Settings.validate_eq_ok_iff.mp hv
    have hr : Dialogue.Reaches s.grammar (.start s lines) d := Dialogue.reaches_run ..
    have h : Dialogue.Stage s.grammar s.terminal.interruptByte lines d :=
      Dialogue.stage_start.reaches hg hf hl hr
    refine ⟨h.printed_prefix hp, ?_, ?_, h.no_infinite_run hg hf hl⟩
    · intro hc
      obtain ⟨done, hidle⟩ := h.exists_idle hc
      exact ⟨(hidle.session_eq hp).trans (Dialogue.emptied_reaches hr), done, hidle.lines_eq,
        hidle.printed_eq_reportsOn hp⟩
    · intro hscreen hshell
      obtain ⟨hended, -⟩ := h.finished hscreen hshell
      exact hended.printed_eq.trans (Dialogue.flatMap_answered hended.heard hp)

/-- An escape character that a return follows, and a pipe of nothing, read in pairs of bytes. -/
theorem session_prints_reports_twoErrors :
    ∃ s : Settings, s.terminal.chunkSize = 2 ∧ s.validate = .ok () ∧
      (∀ text ∈ ["\\\r\n|"], s.terminal.interruptByte ∉ Text.Utf8.encode text) ∧
      Session.inspectAll s.grammar ["\\\r\n|"] (.start s) =
        (["error: malformed input at offset 1: line ends with an escape character",
          "error: empty command in pipeline stage 0"], .start s) := by
  refine ⟨{ terminal := { chunkSize := 2 } }, rfl, ?_⟩
  have hv : ({ terminal := { chunkSize := 2 } } : Settings).validate = .ok () := by decide +kernel
  have hp : ∀ text ∈ ["\\\r\n|"], (3 : UInt8) ∉ Text.Utf8.encode text := by decide +kernel
  have hreports : reportsOn {} (["\\\r\n|"].flatMap typedLines) =
      ["error: malformed input at offset 1: line ends with an escape character",
        "error: empty command in pipeline stage 0"] := by
    decide +kernel
  obtain ⟨-, hall, -⟩ := session_prints_reports hv hp
  exact ⟨hv, hp, hreports ▸ hall⟩

end TerminalShell.Inspector
