import Mathlib.Order.WellFounded
import TerminalShell.Proofs.Inspector.DialogueStages
import TerminalShell.Proofs.Settings.Validity

/-!
How a dialogue goes on. No report comes before its line, none is due while the shell waits, and
every run comes to an end at which all lines have been reported on.
-/
namespace TerminalShell

namespace Channel.Terminal

/-- Each emission weighs more than what it leaves in the queue. -/
def Emission.cost : Emission → Nat
  | .data bytes => 2 * bytes.length + 1
  | .signal => 2

end Channel.Terminal

namespace Inspector
open Channel Command

def ShellTask.cost : ShellTask → Nat
  | .read | .answer _ => 1
  | .stopped => 0

theorem ShellTask.cost_le (task : ShellTask) : task.cost ≤ 1 := by
  cases task <;> simp [ShellTask.cost]

def ScreenTask.cost : ScreenTask → Nat
  | .proceed => 2
  | .inspect left => 3 + left.foldr (fun emission n => emission.cost + n) 0
  | .leave => 1
  | .stopped _ => 0

namespace Dialogue

variable {g : Grammar} {interruptByte : UInt8} {lines : List String} {d e : Dialogue}

theorem Stage.length_answered_le (h : Stage g interruptByte lines d) :
    d.answered.length ≤ d.lineEnds ∧ d.answered.length ≤ lines.length := by
  cases h with
  | idle h => simp [h.lineEnds_eq, h.lines_eq, ← h.heard.length_eq]
  | @asked done line left body h =>
    -- Of all that is on its way only the end of the line is a line feed.
    have hone : (Terminal.emitted left).count 10 ≤ 1 := by
      calc (Terminal.emitted left).count 10 ≤ (d.unread ++ Terminal.emitted left).count 10 := by
            rw [List.count_append]
            exact Nat.le_add_left _ _
        _ = 1 := by
            rw [h.unread_eq, List.count_append, List.count_eq_zero_of_not_mem h.notMem]
            rfl
    have := h.lineEnds_eq
    rw [← h.heard.length_eq, h.lines_eq, List.length_append]
    omega
  | taken h => simp [h.lineEnds_eq, h.lines_eq, ← h.heard.length_eq]
  | told h => simp [h.lineEnds_eq, h.lines_eq, ← h.heard.length_eq]
  | ended h => simp [h.lineEnds_eq, ← h.heard.length_eq]

/-- A shell that waits has reported on every line whose end has come. -/
theorem Stage.shell_waits (h : Stage g interruptByte lines d) (ht : d.shellTask = .read)
    (hs : d.shellStep g = none) :
    d.terminal.input = .opened [] false ∧ d.answered.length = d.lineEnds := by
  obtain ⟨hpending, hinput⟩ := (shellStep_eq_none_iff ht).mp hs
  refine ⟨hinput, ?_⟩
  cases h with
  | idle h => rw [h.lineEnds_eq, h.heard.length_eq]
  | @asked done line left body h =>
    have hcount : (Terminal.emitted left).count 10 = 1 := by
      have := congrArg (List.count 10) h.unread_eq
      simpa [unread, hinput, ByteQueue.bytes, List.count_eq_zero_of_not_mem hpending,
        List.count_eq_zero_of_not_mem h.notMem] using this
    have := h.lineEnds_eq
    rw [← h.heard.length_eq]
    omega
  | taken h =>
    rw [h.shell_eq] at ht
    contradiction
  | told h => rw [h.lineEnds_eq, h.heard.length_eq]
  | ended h =>
    rw [h.input_eq] at hinput
    contradiction

/-- When neither side can go on, all is done. -/
theorem Stage.finished (h : Stage g interruptByte lines d) (hscreen : d.screenStep = none)
    (hshell : d.shellStep g = none) :
    d.Ended g interruptByte lines ∧ d.screenTask = .stopped none ∧ d.shellTask = .stopped := by
  cases h with
  | idle h =>
    obtain ⟨queued, interrupted, hq⟩ := h.input_eq
    unfold Dialogue.screenStep at hscreen
    rw [h.screen_eq] at hscreen
    cases hlater : d.later <;> simp [hlater, hq, ByteQueue.isClosed] at hscreen
  | @asked done line left body h =>
    obtain ⟨queued, interrupted, hq⟩ := h.input_eq
    obtain ⟨hpending, hinput⟩ := (shellStep_eq_none_iff h.shell_eq).mp hshell
    cases left with
    | nil =>
      -- The end of the line is not in the queue, and the shell would have taken it.
      have hu := h.unread_eq
      simp only [unread, hinput, ByteQueue.bytes, Terminal.emitted, List.flatMap_nil,
        List.append_nil] at hu
      exact absurd (by simp [hu]) hpending
    | cons emission left =>
      cases emission <;>
        simp [Dialogue.screenStep, h.screen_eq, hq, ByteQueue.write] at hscreen
  | taken h =>
    obtain ⟨written, hw⟩ := h.output_eq
    simp [Dialogue.shellStep, h.shell_eq, hw, ByteQueue.write] at hshell
  | @told done rest h =>
    obtain ⟨hpending, houtput⟩ := (screenStep_eq_none_iff h.screen_eq).mp hscreen
    have hu := h.unseen_eq
    simp only [unseen, houtput, ByteQueue.bytes, List.append_nil] at hu
    exact absurd (by simp [hu, Text.Utf8.encodeLines]) hpending
  | ended h =>
    rcases h.screen_eq with ht | ht
    · simp [Dialogue.screenStep, ht] at hscreen
    · refine ⟨h, ht, h.shell_eq.resolve_left fun hread => ?_⟩
      obtain ⟨-, hinput⟩ := (shellStep_eq_none_iff hread).mp hshell
      rw [h.input_eq] at hinput
      contradiction

/-- What is left to be done about the line in hand: a byte to be typed weighs as much as one in a
queue, and that more than one in a reader. -/
def cost (d : Dialogue) : Nat :=
  d.screenTask.cost + d.shellTask.cost + d.shell.backlog d.terminal.input +
    d.screen.backlog d.terminal.output

/-- What a step leaves to be done: another line is begun, or the one in hand goes on. -/
def Advances (d e : Dialogue) : Prop :=
  e.later.length < d.later.length ∨ e.later = d.later ∧ e.cost < d.cost

theorem hear_eq (d : Dialogue) (outcome : Option LineReader.Outcome) :
    ∃ task : ShellTask, d.hear outcome = { d with shellTask := task } ∧
      (outcome = some (.failed .closed) → task = .stopped) := by
  unfold hear
  split
  · exact ⟨_, rfl, by simp⟩
  · exact ⟨_, rfl, by simp⟩
  next hc => exact ⟨_, rfl, fun he => absurd he hc⟩

theorem see_eq {d : Dialogue} (ht : d.screenTask = .inspect [])
    (outcome : Option LineReader.Outcome) :
    ∃ task printed, d.see outcome = { d with screenTask := task, printed } ∧ task.cost ≤ 3 ∧
      (outcome = some (.failed .closed) → task.cost = 0) := by
  have hcost : d.screenTask.cost ≤ 3 := by rw [ht]; exact le_rfl
  unfold see
  split
  · split_ifs
    · exact ⟨_, _, rfl, by simp [ScreenTask.cost], by simp⟩
    · exact ⟨_, _, rfl, hcost, by simp⟩
  · exact ⟨_, _, rfl, by simp [ScreenTask.cost], fun _ => rfl⟩
  · exact ⟨_, _, rfl, by simp [ScreenTask.cost], by simp⟩
  · exact ⟨_, _, rfl, hcost, by simp⟩
  · exact ⟨_, _, rfl, hcost, by simp⟩

/-- The shell reports on a line, or goes on with the one in hand. -/
theorem shellStep_advances (hs : d.shellStep g = some e) :
    e.answered.length = d.answered.length + 1 ∨ e.answered = d.answered ∧ d.Advances e := by
  cases ht : d.shellTask with
  | read =>
    obtain ⟨outcome, shell, input, hl, he⟩ := @shellStep_of_read g d ht
    obtain ⟨task, hear, hstopped⟩ := hear_eq { d.setInput input with shell } outcome
    rw [he] at hs
    split_ifs at hs with hw
    rw [Option.some.injEq, hear] at hs
    subst hs
    refine .inr ⟨rfl, .inr ⟨rfl, ?_⟩⟩
    have hread : d.shellTask.cost = 1 := by rw [ht]; rfl
    by_cases hc : outcome = some (.failed .closed)
    · subst hc
      obtain ⟨rfl, rfl⟩ := hl.eq_of_closed
      have hnone : task.cost = 0 := by rw [hstopped rfl]; rfl
      simp only [cost, setInput, hread, hnone]
      omega
    · have hlt := hl.backlog_lt hw hc
      have hle := task.cost_le
      simp only [cost, setInput, hread]
      omega
  | answer line =>
    simp only [Dialogue.shellStep, ht] at hs
    split at hs <;> rw [Option.some.injEq] at hs <;> subst hs
    · exact .inl (List.length_append ..)
    · refine .inr ⟨rfl, .inr ⟨rfl, ?_⟩⟩
      simp only [cost, ht, ShellTask.cost]
      omega
  | stopped => simp [Dialogue.shellStep, ht] at hs

/-- The screen begins to type a line, or goes on with the one in hand. -/
theorem screenStep_advances (hs : d.screenStep = some e) :
    e.answered = d.answered ∧ d.Advances e := by
  cases ht : d.screenTask with
  | proceed =>
    cases hlater : d.later with
    | nil =>
      simp only [Dialogue.screenStep, ht, hlater, Option.some.injEq] at hs
      subst hs
      refine ⟨rfl, .inr ⟨rfl, ?_⟩⟩
      simp only [cost, ht, setInput, ScreenTask.cost, LineReader.backlog, ByteQueue.close,
        ByteQueue.bytes, ByteQueue.isInterrupted, List.length_nil, Bool.toNat_false]
      omega
    | cons line later =>
      simp only [Dialogue.screenStep, ht, hlater] at hs
      split_ifs at hs <;> rw [Option.some.injEq] at hs <;> subst hs
      · refine ⟨rfl, .inr ⟨hlater.symm, ?_⟩⟩
        simp only [cost, ht, ScreenTask.cost]
        omega
      · exact ⟨rfl, .inl (by simp [hlater])⟩
  | inspect left =>
    cases left with
    | nil =>
      obtain ⟨outcome, screen, output, hl, he⟩ := screenStep_of_inspect ht
      obtain ⟨task, printed, see, hle, hnone⟩ :=
        @see_eq { d.setOutput output with screen } ht outcome
      rw [he] at hs
      split_ifs at hs with hw
      rw [Option.some.injEq, see] at hs
      subst hs
      refine ⟨rfl, .inr ⟨rfl, ?_⟩⟩
      have hinspect : d.screenTask.cost = 3 := by rw [ht]; rfl
      by_cases hc : outcome = some (.failed .closed)
      · subst hc
        obtain ⟨rfl, rfl⟩ := hl.eq_of_closed
        simp only [cost, setOutput, hinspect, hnone rfl]
        omega
      · have hlt := hl.backlog_lt hw hc
        simp only [cost, setOutput, hinspect]
        omega
    | cons emission left =>
      cases emission with
      | data bytes =>
        cases hq : d.terminal.input with
        | closed =>
          simp only [Dialogue.screenStep, ht, hq, ByteQueue.write, Option.some.injEq] at hs
          subst hs
          refine ⟨rfl, .inr ⟨rfl, ?_⟩⟩
          simp only [cost, ht, ScreenTask.cost]
          omega
        | opened queued interrupted =>
          simp only [Dialogue.screenStep, ht, hq, ByteQueue.write, Option.some.injEq] at hs
          subst hs
          refine ⟨rfl, .inr ⟨rfl, ?_⟩⟩
          simp only [cost, ht, hq, setInput, ScreenTask.cost, LineReader.backlog, ByteQueue.bytes,
            ByteQueue.isInterrupted, List.length_append, List.foldr_cons,
            Terminal.Emission.cost]
          omega
      | signal =>
        simp only [Dialogue.screenStep, ht, Option.some.injEq] at hs
        subst hs
        refine ⟨rfl, .inr ⟨rfl, ?_⟩⟩
        have hsignal (q : ByteQueue) :
            d.shell.backlog q.signalInterrupt ≤ d.shell.backlog q + 1 := by
          cases q with
          | closed => exact Nat.le_add_right _ _
          | opened queued interrupted =>
            simp [LineReader.backlog, ByteQueue.signalInterrupt, ByteQueue.bytes,
              ByteQueue.isInterrupted]
        have := hsignal d.terminal.input
        simp only [cost, ht, setInput, ScreenTask.cost, List.foldr_cons,
          Terminal.Emission.cost]
        omega
  | leave =>
    simp only [Dialogue.screenStep, ht, Option.some.injEq] at hs
    subst hs
    refine ⟨rfl, .inr ⟨rfl, ?_⟩⟩
    simp only [cost, ht, setOutput, ScreenTask.cost, LineReader.backlog, ByteQueue.close,
      ByteQueue.bytes, ByteQueue.isInterrupted, List.length_nil, Bool.toNat_false]
    omega
  | stopped failure => simp [Dialogue.screenStep, ht] at hs

/-- However the turns are given, there is an end to them: the lines to be reported on get fewer, or
else those to be typed, or else what is left of the line in hand. -/
theorem Stage.acc (h : Stage g interruptByte lines d) (hg : g.IsSound) (hf : interruptByte ≠ 10)
    (hl : ∀ line ∈ lines, 10 ∉ Text.Utf8.encode line) :
    Acc (fun e d => ∃ p, d.step g p = some e) d := by
  have wf : WellFounded (InvImage (Prod.Lex (· < ·) (Prod.Lex (· < ·) (· < ·)))
      fun d : Dialogue => (lines.length - d.answered.length, d.later.length, d.cost)) :=
    InvImage.wf _ (wellFounded_lt.prod_lex (wellFounded_lt.prod_lex wellFounded_lt))
  induction d using wf.induction with
  | _ d ih =>
    refine .intro d fun e ⟨p, hs⟩ => ?_
    have he := h.step hg hf hl hs
    refine ih e ?_ he
    have hgoes (ha : e.answered = d.answered) (hadv : d.Advances e) :
        InvImage (Prod.Lex (· < ·) (Prod.Lex (· < ·) (· < ·)))
          (fun d : Dialogue => (lines.length - d.answered.length, d.later.length, d.cost)) e d := by
      simp only [InvImage, ha]
      rcases hadv with hlater | ⟨hlater, hcost⟩
      · exact .right _ (.left _ _ hlater)
      · rw [hlater]
        exact .right _ (.right _ hcost)
    cases p with
    | screen => exact hgoes (screenStep_advances hs).1 (screenStep_advances hs).2
    | shell =>
      rcases shellStep_advances hs with ha | ⟨ha, hadv⟩
      · have hle := he.length_answered_le.2
        exact .left _ _ (by omega)
      · exact hgoes ha hadv

theorem Stage.no_infinite_run (h : Stage g interruptByte lines d) (hg : g.IsSound)
    (hf : interruptByte ≠ 10) (hl : ∀ line ∈ lines, 10 ∉ Text.Utf8.encode line) :
    ¬ ∃ run : ℕ → Dialogue, run 0 = d ∧ ∀ n, ∃ p, (run n).step g p = some (run (n + 1)) := by
  rintro ⟨run, h0, hrun⟩
  exact (acc_iff_isEmpty_descending_chain.mp (h.acc hg hf hl)).false ⟨run, h0, hrun⟩

theorem stage_start {s : Settings} : Stage g s.terminal.interruptByte lines (start s lines) :=
  @Stage.idle _ _ _ _ [] {
    interruptByte_eq := rfl
    input_eq := ⟨[], false, rfl⟩
    output_eq := ⟨[], rfl⟩
    heard := .nil
    quiet := fun _ => rfl
    shell_eq := rfl
    screen_eq := rfl
    lines_eq := rfl
    lineEnds_eq := rfl
    unread_eq := rfl
    unseen_eq := rfl
    printed_eq := rfl }

/-- Whatever the interrupts in the lines, and in whatever order the screen's keystrokes and signals
and the two sides' reads come: no report is written before the end of its line has been typed; when
the shell waits, its queue is open, empty and without interrupt, and there are as many reports as
line ends; and the sides go on until each line has been reported on and both have left. -/
theorem one_report_per_line {s : Settings} (hv : s.validate = .ok ()) (texts : List String)
    (turns : List Party) :
    let lines := texts.flatMap typedLines
    let d := (start s lines).run s.grammar turns
    d.answered.length ≤ d.lineEnds ∧
    (d.shellTask = .read → d.shellStep s.grammar = none →
      d.terminal.input = .opened [] false ∧ d.answered.length = d.lineEnds) ∧
    (d.screenStep = none → d.shellStep s.grammar = none →
      d.screenTask = .stopped none ∧ d.shellTask = .stopped ∧
        d.answered.length = lines.length ∧ d.lineEnds = lines.length) ∧
    ¬ ∃ run : ℕ → Dialogue, run 0 = d ∧
      ∀ n, ∃ p, (run n).step s.grammar p = some (run (n + 1)) := by
  intro lines d
  obtain ⟨-, ⟨hf, -⟩, hg, -⟩ := Settings.validate_eq_ok_iff.mp hv
  have hl : ∀ line ∈ lines, 10 ∉ Text.Utf8.encode line := notMem_encode_of_mem_typedLines
  have h : Stage s.grammar s.terminal.interruptByte lines d :=
    stage_start.reaches hg hf hl (reaches_run ..)
  refine ⟨h.length_answered_le.1, h.shell_waits, ?_, h.no_infinite_run hg hf hl⟩
  intro hscreen hshell
  obtain ⟨hended, hleft, hstopped⟩ := h.finished hscreen hshell
  exact ⟨hleft, hstopped, hended.heard.length_eq.symm, hended.lineEnds_eq⟩

/-- An interrupt that comes when the shell has read the first half of a line and the second half is
still to be typed. -/
theorem one_report_per_line_interrupted :
    ∃ turns d, d = (start {} (["a\x03b"].flatMap typedLines)).run ({} : Settings).grammar turns ∧
      ({} : Settings).validate = .ok () ∧ d.shellTask = .read ∧
      d.shellStep ({} : Settings).grammar = none ∧ d.answered = ["b"] ∧
      d.terminal.input = .opened [] false ∧ d.answered.length = d.lineEnds := by
  have hv : ({} : Settings).validate = .ok () := by decide +kernel
  obtain ⟨turns, hturns⟩ : ∃ turns : List Party, turns =
    [.screen, .screen, .shell, .screen, .shell, .screen, .shell, .shell, .shell] := ⟨_, rfl⟩
  obtain ⟨d, hd⟩ : ∃ d, d = (start {} (["a\x03b"].flatMap typedLines)).run
    ({} : Settings).grammar turns := ⟨_, rfl⟩
  have ht : d.shellTask = .read := by rw [hd, hturns]; decide +kernel
  have hs : d.shellStep ({} : Settings).grammar = none := by rw [hd, hturns]; decide +kernel
  have ha : d.answered = ["b"] := by rw [hd, hturns]; decide +kernel
  have h := one_report_per_line hv ["a\x03b"] turns
  dsimp only at h
  rw [← hd] at h
  exact ⟨turns, d, hd, hv, ht, hs, ha, h.2.1 ht hs⟩

end Dialogue

end Inspector

end TerminalShell
