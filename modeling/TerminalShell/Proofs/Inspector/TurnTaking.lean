import TerminalShell.Proofs.Inspector.DialogueProgress

/-!
A session in which the two sides take turns is one of the dialogues: the shell works until it has to
wait, and then the screen reads up to the end of a report. So what holds of every dialogue holds of
the session.
-/
namespace TerminalShell.Inspector
open Channel Command

namespace Session

/-- Types lines one after the other, and reads the report on each. -/
def typeLines (g : Grammar) : List String → Session → List String × Session
  | [], s => ([], s)
  | line :: lines, s =>
    let (shown, s) := s.typeLine g line
    let (more, s) := typeLines g lines s
    (shown ++ more, s)

variable (g : Grammar)

theorem typeLines_append (first second : List String) (s : Session) :
    typeLines g (first ++ second) s =
      ((typeLines g first s).1 ++ (typeLines g second (typeLines g first s).2).1,
        (typeLines g second (typeLines g first s).2).2) := by
  induction first generalizing s with
  | nil => rfl
  | cons line first ih => simp [typeLines, ih]

theorem inspect_eq_typeLines (text : String) (s : Session) :
    s.inspect g text = typeLines g (typedLines text) s := by
  have h (lines shown : List String) (s : Session) :
      lines.foldl (fun (shown, s) line =>
        let (more, s) := typeLine g line s
        (shown ++ more, s)) (shown, s) =
      (shown ++ (typeLines g lines s).1, (typeLines g lines s).2) := by
    induction lines generalizing shown s with
    | nil => simp [typeLines]
    | cons line lines ih => rw [List.foldl_cons, ih, List.append_assoc]; rfl
  exact h (typedLines text) [] s

/-- Texts are inspected as the lines that they are typed as. -/
theorem inspectAll_eq_typeLines (texts : List String) (s : Session) :
    s.inspectAll g texts = typeLines g (texts.flatMap typedLines) s := by
  have h (shown : List String) (s : Session) :
      texts.foldl (fun (shown, s) text =>
        let (more, s) := inspect g text s
        (shown ++ more, s)) (shown, s) =
      (shown ++ (typeLines g (texts.flatMap typedLines) s).1,
        (typeLines g (texts.flatMap typedLines) s).2) := by
    induction texts generalizing shown s with
    | nil => simp [typeLines]
    | cons text texts ih =>
      rw [List.foldl_cons, ih, List.flatMap_cons, typeLines_append, ← inspect_eq_typeLines,
        List.append_assoc]
  exact h [] s

end Session

namespace Dialogue

variable {g : Grammar} {interruptByte : UInt8} {lines : List String} {d e : Dialogue}

section Calls

variable {outcome : LineReader.Outcome} {r r' : LineReader} {q q' : ByteQueue}

/-- A call of a party's reader, with nothing happening meanwhile, when `put` says where the reader
and its queue are and `after` what the party makes of an outcome. -/
theorem reaches_next (p : Party) (put : LineReader → ByteQueue → Dialogue)
    (after : Dialogue → Option LineReader.Outcome → Dialogue)
    (hstep : ∀ r q, (put r q).step g p =
      if (r.look ByteQueue.awaited q).1 = some .waiting then none
      else some (after (put (r.look ByteQueue.awaited q).2.1 (r.look ByteQueue.awaited q).2.2)
        (r.look ByteQueue.awaited q).1))
    (hmore : ∀ d, after d none = d) (hwait : ∀ d, after d (some .waiting) = d)
    (hn : r.next ByteQueue.awaited q = (outcome, r', q')) :
    Reaches g (put r q) (after (put r' q') (some outcome)) ∧ outcome ≠ .incomplete ∧
      (outcome = .waiting → (put r' q').step g p = none) := by
  obtain ⟨⟨last, queue⟩, hlooks, hlast⟩ := LineReader.exists_looks_of_next ByteQueue.awaited r q
  rw [hn] at hlast
  have hl := LineReader.look_looks last queue
  rw [hlast] at hl
  have hreach : Reaches g (put r q) (put last queue) := by
    refine hlooks.lift (fun now => put now.1 now.2) ?_
    intro now next h
    refine ⟨p, ?_⟩
    rw [hstep, h, hmore]
    rfl
  refine ⟨?_, fun h => hl.ne_incomplete (congrArg some h), ?_⟩
  · by_cases hw : outcome = .waiting
    · subst hw
      obtain ⟨rfl, rfl⟩ := hl.eq_of_waiting
      rw [hwait]
      exact hreach
    · refine hreach.tail ⟨p, ?_⟩
      rw [hstep, hlast, if_neg (by simpa using hw)]
  · rintro rfl
    obtain ⟨rfl, rfl⟩ := hl.eq_of_waiting
    rw [hstep, hlast, if_pos rfl]

/-- The shell asks for a line. -/
theorem reaches_nextTyped (ht : d.shellTask = .read) {s : Session}
    (hn : d.session.nextTyped = (outcome, s)) :
    ∃ shell input, s = ({ d.setInput input with shell } : Dialogue).session ∧
      Reaches g d ({ d.setInput input with shell }.hear (some outcome)) ∧ outcome ≠ .incomplete ∧
      (outcome = .waiting →
        ({ d.setInput input with shell } : Dialogue).shellStep g = none) := by
  simp only [Session.nextTyped, session, Terminal.awaitedInput, Terminal.next_within_input] at hn
  cases hn
  exact ⟨_, _, rfl, reaches_next .shell (fun r q => { d.setInput q with shell := r }) hear
    (fun r q => by simp only [step, shellStep, setInput, ht]) (fun _ => rfl) (fun _ => rfl) rfl⟩

/-- The screen asks for a line. -/
theorem reaches_nextReported (ht : d.screenTask = .inspect []) {s : Session}
    (hn : d.session.nextReported = (outcome, s)) :
    ∃ screen output, s = ({ d.setOutput output with screen } : Dialogue).session ∧
      Reaches g d ({ d.setOutput output with screen }.see (some outcome)) ∧
      outcome ≠ .incomplete ∧
      (outcome = .waiting →
        ({ d.setOutput output with screen } : Dialogue).screenStep = none) := by
  simp only [Session.nextReported, session, Terminal.awaitedOutput] at hn
  rw [LineReader.next_within _ _ (by intros; rfl) (by intro; rfl)] at hn
  cases hn
  exact ⟨_, _, rfl, reaches_next .screen (fun r q => { d.setOutput q with screen := r }) see
    (fun r q => by simp only [step, screenStep, setOutput, ht]) (fun _ => rfl) (fun _ => rfl) rfl⟩

end Calls

/-- The shell that has taken a line writes the report on it. -/
theorem Stage.shellStep_of_answer {text : String} (h : Stage g interruptByte lines d)
    (ht : d.shellTask = .answer text) :
    d.shellStep g = some { d with
      terminal := (d.terminal.print (Text.Utf8.encode (Report.text g text))).2
      shellTask := .read
      answered := d.answered ++ [text] } := by
  cases h with
  | taken h =>
    obtain ⟨written, hw⟩ := h.output_eq
    simp [Dialogue.shellStep, ht, hw, ByteQueue.write, Terminal.print, setOutput]
  | idle h | asked h | told h => simp [h.shell_eq] at ht
  | ended h => rcases h.shell_eq with hr | hr <;> simp [hr] at ht

section Turns

variable (hg : g.IsSound) (hf : interruptByte ≠ 10) (hl : ∀ line ∈ lines, 10 ∉ Text.Utf8.encode line)

include hg hf hl in
/-- The shell's turn: it works until it has to wait. -/
theorem Stage.reaches_serve (h : Stage g interruptByte lines d) (ht : d.shellTask = .read)
    (hc : d.screenTask = .inspect []) :
    ∃ e, Reaches g d e ∧ e.session = d.session.serve g ∧ e.screenTask = .inspect [] ∧
      e.later = d.later ∧ e.printed = d.printed ∧ e.shellTask = .read ∧
      e.shellStep g = none := by
  generalize hs : d.session = s
  fun_induction Session.serve g s generalizing d with
  | case1 s text t hnext _ ih =>
    subst hs
    obtain ⟨shell, input, rfl, hr, -, -⟩ := @reaches_nextTyped g _ _ ht _ hnext
    have htaken := h.reaches hg hf hl hr
    have hstep := htaken.shellStep_of_answer rfl
    have hr' := hr.tail ⟨.shell, hstep⟩
    obtain ⟨e, he, hrest⟩ := ih (h.reaches hg hf hl hr') rfl hc rfl
    exact ⟨e, hr'.trans he, hrest⟩
  | case2 s t hnext _ ih =>
    subst hs
    obtain ⟨shell, input, rfl, hr, -, -⟩ := @reaches_nextTyped g _ _ ht _ hnext
    obtain ⟨e, he, hrest⟩ := ih (h.reaches hg hf hl hr) ht hc rfl
    exact ⟨e, hr.trans he, hrest⟩
  | case3 s t hnext =>
    -- The terminal is open until the screen leaves.
    subst hs
    obtain ⟨shell, input, rfl, hr, -, -⟩ := @reaches_nextTyped g _ _ ht _ hnext
    cases h.reaches hg hf hl hr with
    | idle h | asked h | taken h | told h => cases h.shell_eq
    | ended h => rcases h.screen_eq with he | he <;> exact absurd (hc.symm.trans he) (by simp)
  | case4 s t hnext =>
    subst hs
    obtain ⟨-, -, -, -, hne, -⟩ := @reaches_nextTyped g _ _ ht _ hnext
    exact absurd rfl hne
  | case5 s t hnext =>
    subst hs
    obtain ⟨shell, input, rfl, hr, -, hwait⟩ := @reaches_nextTyped g _ _ ht _ hnext
    exact ⟨_, hr, rfl, hc, rfl, rfl, ht, hwait rfl⟩

include hg hf hl in
/-- The screen's turn: it reads up to the end of a report, if that has come. -/
theorem Stage.reaches_collect (h : Stage g interruptByte lines d) (hc : d.screenTask = .inspect []) :
    ∃ e, Reaches g d e ∧ e.session = d.session.collect.2 ∧
      e.printed = d.printed ++ d.session.collect.1 ∧ e.later = d.later ∧
      e.shellTask = d.shellTask ∧ e.shell = d.shell ∧ e.terminal.input = d.terminal.input ∧
      (e.screenTask = .proceed ∨ e.screenTask = .inspect [] ∧ e.screenStep = none) := by
  generalize hs : d.session = s
  fun_induction Session.collect s generalizing d with
  | case1 s t hnext =>
    subst hs
    obtain ⟨screen, output, rfl, hr, -, -⟩ := @reaches_nextReported g _ _ hc _ hnext
    exact ⟨_, hr, rfl, (List.append_nil _).symm, rfl, rfl, rfl, rfl, .inl rfl⟩
  | case2 s text t hnext _ hmark more u hcollect ih =>
    subst hs
    obtain ⟨screen, output, rfl, hr, -, -⟩ := @reaches_nextReported g _ _ hc _ hnext
    rw [see, if_neg hmark] at hr
    obtain ⟨e, he, hsession, hprinted, hrest⟩ := ih (h.reaches hg hf hl hr) hc rfl
    rw [hcollect] at hsession hprinted
    exact ⟨e, hr.trans he, hsession, by simpa [setOutput] using hprinted, hrest⟩
  | case3 s error t hnext =>
    -- A failure would end the screen, but the terminal is open until it leaves.
    subst hs
    obtain ⟨screen, output, rfl, hr, -, -⟩ := @reaches_nextReported g _ _ hc _ hnext
    cases h.reaches hg hf hl hr with
    | idle h | asked h | taken h | told h => cases h.screen_eq
    | ended h => rcases h.screen_eq with he | he <;> cases he
  | case4 s t hnext =>
    subst hs
    obtain ⟨-, -, -, -, hne, -⟩ := @reaches_nextReported g _ _ hc _ hnext
    exact absurd rfl hne
  | case5 s t hnext =>
    subst hs
    obtain ⟨screen, output, rfl, hr, -, hwait⟩ := @reaches_nextReported g _ _ hc _ hnext
    exact ⟨_, hr, rfl, (List.append_nil _).symm, rfl, rfl, rfl, rfl, .inr ⟨hc, hwait rfl⟩⟩

theorem reaches_emissions {left : List Terminal.Emission} {queued : List UInt8}
    {interrupted : Bool} (hq : d.terminal.input = .opened queued interrupted)
    (hc : d.screenTask = .inspect left) :
    ∃ lineEnds, Reaches g d { d.setInput (left.foldl Terminal.Emission.apply d.terminal.input) with
      screenTask := .inspect []
      lineEnds } := by
  induction left generalizing d queued interrupted with
  | nil =>
    refine ⟨d.lineEnds, ?_⟩
    rw [← hc]
    exact .refl
  | cons emission left ih =>
    obtain ⟨queued', interrupted', hq'⟩ :
        ∃ queued' interrupted', emission.apply d.terminal.input = .opened queued' interrupted' := by
      rw [hq]
      cases emission <;> exact ⟨_, _, rfl⟩
    obtain ⟨typed, hstep⟩ : ∃ typed, d.screenStep = some
        { d.setInput (emission.apply d.terminal.input) with
          screenTask := .inspect left
          lineEnds := typed } := by
      cases emission with
      | data bytes =>
        refine ⟨d.lineEnds + bytes.count 10, ?_⟩
        simp only [screenStep, hc, hq, ByteQueue.write, Terminal.Emission.apply]
      | signal =>
        refine ⟨d.lineEnds, ?_⟩
        simp only [screenStep, hc, Terminal.Emission.apply]
        rfl
    obtain ⟨lineEnds, hr⟩ := @ih { d.setInput (emission.apply d.terminal.input) with
      screenTask := .inspect left
      lineEnds := typed } _ _ hq' rfl
    exact ⟨lineEnds, .head ⟨.screen, hstep⟩ hr⟩

/-- A screen that goes on to the next line has nothing on its way. -/
theorem Stage.exists_idle (h : Stage g interruptByte lines d) (hc : d.screenTask = .proceed) :
    ∃ done, d.Idle g interruptByte lines done := by
  cases h with
  | idle h => exact ⟨_, h⟩
  | asked h | taken h | told h => exact absurd (hc.symm.trans h.screen_eq) (by simp)
  | ended h => rcases h.screen_eq with he | he <;> exact absurd (hc.symm.trans he) (by simp)

theorem Idle.reaches_typed {done : List String} (h : d.Idle g interruptByte lines done)
    {line : String} {later : List String} (hlater : d.later = line :: later) :
    ∃ e, Reaches g d e ∧ e.session = { d.session with
        terminal := (d.terminal.typeBytes (Text.Utf8.encode (line ++ "\n"))).2 } ∧
      e.screenTask = .inspect [] ∧ e.later = later ∧ e.printed = d.printed ∧
      e.shellTask = .read := by
  obtain ⟨queued, interrupted, hq⟩ := h.input_eq
  have hbegin : d.screenStep = some { d with
      later
      screenTask := .inspect (Terminal.emissions d.terminal.interruptByte
        (Text.Utf8.encode (line ++ "\n"))) } := by
    simp [Dialogue.screenStep, h.screen_eq, hlater, hq, ByteQueue.isClosed]
  obtain ⟨lineEnds, htyped⟩ := @reaches_emissions g { d with
      later
      screenTask := .inspect (Terminal.emissions d.terminal.interruptByte
        (Text.Utf8.encode (line ++ "\n"))) } _ _ _ hq rfl
  refine ⟨_, .head ⟨.screen, hbegin⟩ htyped, ?_, rfl, rfl, rfl, h.shell_eq⟩
  simp [Terminal.typeBytes, session, hq, ByteQueue.isClosed, setInput]

include hg hf hl in
/-- A line typed in the session is a line inspected in the dialogue. -/
theorem Stage.reaches_typeLine (h : Stage g interruptByte lines d) {line : String}
    {later : List String} (hc : d.screenTask = .proceed) (hlater : d.later = line :: later) :
    ∃ e, Reaches g d e ∧ e.session = (d.session.typeLine g line).2 ∧
      e.printed = d.printed ++ (d.session.typeLine g line).1 ∧ e.later = later ∧
      e.screenTask = .proceed := by
  obtain ⟨done, hidle⟩ := h.exists_idle hc
  obtain ⟨d₁, hr₁, hs₁, hc₁, hlater₁, hprinted₁, ht₁⟩ := hidle.reaches_typed hlater
  have h₁ := h.reaches hg hf hl hr₁
  obtain ⟨d₂, hr₂, hs₂, hc₂, hlater₂, hprinted₂, ht₂, hwait⟩ :=
    h₁.reaches_serve hg hf hl ht₁ hc₁
  have h₂ := h₁.reaches hg hf hl hr₂
  obtain ⟨e, hr₃, hs₃, hprinted₃, hlater₃, ht₃, hshell, hinput, hend⟩ :=
    h₂.reaches_collect hg hf hl hc₂
  have hturns : d.session.typeLine g line = d₂.session.collect := by
    rw [hs₂, hs₁]
    rfl
  refine ⟨e, (hr₁.trans hr₂).trans hr₃, by rw [hs₃, hturns],
    by rw [hprinted₃, hprinted₂, hprinted₁, hturns], by rw [hlater₃, hlater₂, hlater₁],
    hend.resolve_right ?_⟩
  rintro ⟨hc₃, hscreen⟩
  -- The shell still waits: nobody could go on, and yet the screen has not left.
  have hshell : e.shellStep g = none := by
    rw [shellStep_eq_none_iff (ht₃.trans ht₂), hshell, hinput]
    exact (shellStep_eq_none_iff ht₂).mp hwait
  obtain ⟨-, hleft, -⟩ := (h₂.reaches hg hf hl hr₃).finished hscreen hshell
  rw [hc₃] at hleft
  contradiction

include hg hf hl in
/-- A session is a dialogue in which the sides take turns. -/
theorem Stage.reaches_typeLines (h : Stage g interruptByte lines d) {first later : List String}
    (hc : d.screenTask = .proceed) (hlater : d.later = first ++ later) :
    ∃ e, Reaches g d e ∧ e.session = (d.session.typeLines g first).2 ∧
      e.printed = d.printed ++ (d.session.typeLines g first).1 ∧ e.later = later ∧
      e.screenTask = .proceed := by
  induction first generalizing d with
  | nil => exact ⟨d, .refl, rfl, (List.append_nil _).symm, hlater, hc⟩
  | cons line first ih =>
    obtain ⟨d₁, hr₁, hs₁, hprinted₁, hlater₁, hc₁⟩ := h.reaches_typeLine hg hf hl hc hlater
    obtain ⟨e, hr, hs, hprinted, hlater, hc⟩ := ih (h.reaches hg hf hl hr₁) hc₁ hlater₁
    rw [hs₁] at hs hprinted
    exact ⟨e, hr₁.trans hr, hs, by rw [hprinted, hprinted₁, List.append_assoc]; rfl, hlater, hc⟩

end Turns

end Dialogue

end TerminalShell.Inspector
