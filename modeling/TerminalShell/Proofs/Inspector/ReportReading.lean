import TerminalShell.Inspector.Session
import TerminalShell.Proofs.Channel.DeliveredLines
import TerminalShell.Proofs.Inspector.ReportFraming

/-!
Reports on their way. A reader that takes lines up to the first end mark has the lines of one report
and leaves what comes behind it, whatever the line that is reported on says and however the bytes
come.
-/
namespace TerminalShell

/-- A line of text comes out of its bytes as it was. -/
theorem Text.IsOneLine.decodeLenient_encode {text : String} (h : IsOneLine text) :
    Utf8.decodeLenient (dropReturn (Utf8.encode text)) = text := by
  rw [h.dropReturn_encode, Utf8.decodeLenient_encode]

namespace Inspector
open Channel Command

variable {written later : List UInt8} {interrupted : Bool}

namespace Report

theorem isOneLine_endMark : Text.IsOneLine endMark := by decide

theorem lines_ne_nil (g : Grammar) (line : String) : lines g line ≠ [] := by
  unfold lines
  split
  next plan _ =>
    unfold planLines
    split_ifs with h
    · exact List.cons_ne_nil _ _
    · rw [List.isEmpty_iff] at h
      simp [h]
  · exact List.cons_ne_nil _ _

variable {g : Grammar} {σ : Type} {source : ByteSource σ} {state : σ} {reader : LineReader}

theorem calls_of_text (hg : g.IsSound) {line : String}
    (h : source.Delivers reader.chunkSize state written)
    (hcut : reader.pending ++ written = Text.Utf8.encode (text g line) ++ later) :
    ∃ k before pending left state', pending ++ left = later ∧
      source.Delivers reader.chunkSize state' left ∧
      before.filter (· ≠ .incomplete) = (lines g line).map .line ∧
      reader.calls source state k =
        (before ++ [.line endMark], { reader with pending := pending }, state') := by
  have hone : ∀ text ∈ lines g line, Text.IsOneLine text :=
    fun text ht => (isContent_of_mem_lines hg ht).oneLine
  have hbytes : Text.Utf8.encode (text g line) ++ later =
      ((lines g line).map Text.Utf8.encode).flatMap (· ++ [10]) ++
        (Text.Utf8.encode endMark ++ 10 :: later) := by
    rw [encode_text]
    simp [Text.Utf8.encodeLines, List.flatMap_map]
  have hl : ∀ body ∈ (lines g line).map Text.Utf8.encode, 10 ∉ body :=
    List.forall_mem_map.mpr fun text ht => (hone text ht).notMem_encode
  obtain ⟨j, outcomes, pending, left, middle, hrest, hleft, hcontent, hfirst⟩ :=
    LineReader.calls_of_lines h rfl hl (hcut.trans hbytes)
  obtain ⟨k, pending', left', last, hrest', hleft', hmark⟩ :=
    LineReader.calls_of_line (r := { reader with pending }) hleft rfl
      isOneLine_endMark.notMem_encode hrest
  rw [isOneLine_endMark.decodeLenient_encode] at hmark
  refine ⟨j + (k + 1), outcomes ++ List.replicate k .incomplete, pending', left', last, hrest',
    hleft', ?_, ?_⟩
  · rw [List.filter_append, hcontent, List.map_map]
    simpa using fun text ht => (hone text ht).decodeLenient_encode
  · rw [LineReader.calls_add, hfirst]
    simp only [hmark, List.append_assoc]

end Report

namespace Session

variable {s t : Session}

theorem nextReported_of_line {line : List UInt8}
    (hs : s.terminal.output = .opened written interrupted) (hl : 10 ∉ line)
    (h : s.screen.pending ++ written = line ++ 10 :: later) :
    ∃ pending left, pending ++ left = later ∧
      s.nextReported = (.line (Text.Utf8.decodeLenient (Text.dropReturn line)),
        { s with
          screen := { s.screen with pending := pending }
          terminal := { s.terminal with output := .opened left interrupted } }) := by
  obtain ⟨pending, left, hrest, hnext⟩ :=
    @LineReader.next_opened_of_line _ s.screen written line later interrupted
      ByteQueue.awaited_reports hl h
  refine ⟨pending, left, hrest, ?_⟩
  rw [nextReported, Terminal.awaitedOutput,
    LineReader.next_within _ _ (by intros; rfl) (by intro; rfl), hs, hnext]

theorem collect_of_line {text : String} (h : s.nextReported = (.line text, t)) :
    s.collect =
      if text = Report.endMark then ([], t) else (text :: t.collect.1, t.collect.2) := by
  rw [collect]
  split
  next h' =>
    rw [h, Prod.mk.injEq, LineReader.Outcome.line.injEq] at h'
    obtain ⟨rfl, rfl⟩ := h'
    rfl
  all_goals
    next h' => simp [h] at h'

/-- The screen takes the lines of a report off what has been written, and no more. -/
theorem collect_of_lines {texts : List String} (ht : ∀ text ∈ texts, Report.IsContent text)
    (hs : s.terminal.output = .opened written interrupted)
    (h : s.screen.pending ++ written =
      Text.Utf8.encodeLines (texts ++ [Report.endMark]) ++ later) :
    ∃ pending left, pending ++ left = later ∧
      s.collect = (texts, { s with
        screen := { s.screen with pending := pending }
        terminal := { s.terminal with output := .opened left interrupted } }) := by
  induction texts generalizing s written with
  | nil =>
    rw [List.nil_append, Text.Utf8.encodeLines_cons, List.append_assoc, List.cons_append] at h
    obtain ⟨pending, left, hrest, hnext⟩ :=
      nextReported_of_line hs Report.isOneLine_endMark.notMem_encode h
    rw [Report.isOneLine_endMark.decodeLenient_encode] at hnext
    exact ⟨pending, left, hrest, (collect_of_line hnext).trans (if_pos rfl)⟩
  | cons text texts ih =>
    obtain ⟨hcontent, hrest⟩ := List.forall_mem_cons.mp ht
    rw [List.cons_append, Text.Utf8.encodeLines_cons, List.append_assoc, List.cons_append] at h
    obtain ⟨pending, left, hcut, hnext⟩ :=
      nextReported_of_line hs hcontent.oneLine.notMem_encode h
    rw [hcontent.oneLine.decodeLenient_encode] at hnext
    obtain ⟨pending', left', hlater, hcollect⟩ := @ih left { s with
      screen := { s.screen with pending := pending }
      terminal := { s.terminal with output := .opened left interrupted } } hrest rfl hcut
    refine ⟨pending', left', hlater, ?_⟩
    rw [collect_of_line hnext, if_neg hcontent.ne_endMark, hcollect]

end Session

/-- Under valid settings the report on a line is one line or more and then the end mark, each with a
line feed, and no line before the mark is empty, is the mark or has a line end in it. Whoever takes
lines of any source that has the report at hand, up to the first that is the mark, has taken exactly
those before it, and what comes behind the report is still to come; so it is with a screen that
collects a report. -/
theorem report_framed {s : Settings} (hv : s.validate = .ok ()) (line : String) :
    let content := Report.lines s.grammar line
    let bytes := Text.Utf8.encode (Report.text s.grammar line)
    Report.text s.grammar line = String.join (content.map (· ++ "\n")) ++ "--\n" ∧
    content ≠ [] ∧
    (∀ text ∈ content, text ≠ "" ∧ text ≠ "--" ∧ '\n' ∉ text.toList ∧ '\r' ∉ text.toList) ∧
    (∀ (σ : Type) (source : ByteSource σ) (state : σ) (reader : LineReader)
        (written later : List UInt8),
      source.Delivers reader.chunkSize state written → reader.pending ++ written = bytes ++ later →
      ∃ k before pending left state', pending ++ left = later ∧
        source.Delivers reader.chunkSize state' left ∧
        before.filter (· ≠ .incomplete) = content.map .line ∧
        reader.calls source state k =
          (before ++ [.line "--"], { reader with pending := pending }, state')) ∧
    ∀ (t : Session) (written later : List UInt8) (interrupted : Bool),
      t.terminal.output = .opened written interrupted →
      t.screen.pending ++ written = bytes ++ later →
      ∃ pending left, pending ++ left = later ∧
        t.collect = (content, { t with
          screen := { t.screen with pending := pending }
          terminal := { t.terminal with output := .opened left interrupted } }) := by
  intro content bytes
  have hg : s.grammar.IsSound := Settings.grammar_isSound hv
  have hcontent : ∀ text ∈ content, Report.IsContent text :=
    fun text ht => Report.isContent_of_mem_lines hg ht
  refine ⟨?_, Report.lines_ne_nil _ _, ?_, ?_, ?_⟩
  · rw [Report.text, List.map_append, String.join_append]
    rfl
  · intro text ht
    obtain ⟨hone, hempty, hmark⟩ := hcontent text ht
    exact ⟨hempty, hmark, fun hm => (hone _ hm).1 rfl, fun hm => (hone _ hm).2 rfl⟩
  · intro σ source state reader written later h hcut
    exact Report.calls_of_text hg h hcut
  · intro t written later interrupted hs hcut
    exact Session.collect_of_lines hcontent hs (Report.encode_text _ _ ▸ hcut)

/-- An operator that is the end mark, a word that has it and a line feed in it, and a target that
has it and a return in it, read in pairs of bytes. -/
theorem report_framed_endMarks :
    ∃ s : Settings, s.validate = .ok () ∧ s.grammar.output = "--" ∧
      let line := "\"\n--\n\" -- \"--\r\""
      let content := ["stage 0: [\"\\n--\\n\"]", "redirect Output: \"--\\r\""]
      let queue := ByteQueue.ofBytes (Text.Utf8.encode (Report.text s.grammar line))
      (∃ k before reader queue', before.filter (· ≠ .incomplete) = content.map .line ∧
        (LineReader.ofChunkSize 2).calls ByteQueue.polled queue k =
          (before ++ [.line "--"], reader, queue')) ∧
      ({ Session.start {} with terminal := { output := queue } } : Session).collect.1 =
        content := by
  have hv : ({ grammar := { output := "--" } } : Settings).validate = .ok () := by decide +kernel
  refine ⟨_, hv, rfl, ?_⟩
  intro line content queue
  have hlines : Report.lines { output := "--" } line = content := by decide +kernel
  obtain ⟨-, -, -, hread, hcollect⟩ := report_framed hv line
  rw [hlines] at hread hcollect
  constructor
  · obtain ⟨k, before, pending, left, queue', -, -, hbefore, hcalls⟩ :=
      hread _ ByteQueue.polled queue (.ofChunkSize 2) _ []
        (ByteQueue.polled_reports.delivers (by decide) _ false)
        ((List.nil_append _).trans (List.append_nil _).symm)
    exact ⟨k, before, _, queue', hbefore, hcalls⟩
  · obtain ⟨pending, left, -, hall⟩ :=
      hcollect { Session.start {} with terminal := { output := queue } } _ [] false rfl
        ((List.nil_append _).trans (List.append_nil _).symm)
    rw [hall]

end Inspector

end TerminalShell
