import TerminalShell.Proofs.Command.Wiring

/-!
When a target is opened. A line is checked as a whole before anything is done for it: a line that
fails a check leaves everything as it is, and the opener is asked once at most, when nothing but the
opener itself can fail any more.
-/
namespace TerminalShell.Command

variable {σ : Type} {g : Grammar} {line : String} {ends : Ends} {state : σ} {streams : Streams}

/-- What is wrong with a line, by the first check that it fails. -/
inductive Grammar.Rejects (g : Grammar) (line : String) : LineError → Prop where
  | words {e : LineError} (h : g.words line = .error e) : Rejects g line e
  | redirection {words : List String} {e : LineError} (hw : g.words line = .ok words)
      (h : g.extractRedirection words = .error e) : Rejects g line e
  /-- A redirection of no command. -/
  | bare {words : List String} {r : Redirection} (hw : g.words line = .ok words)
      (h : g.extractRedirection words = .ok ([], some r)) : Rejects g line (.emptyStage 0)
  | segments {words front : List String} {redirection : Option Redirection} {e : LineError}
      (hw : g.words line = .ok words) (hr : g.extractRedirection words = .ok (front, redirection))
      (hb : front = [] → redirection = none) (h : segments g.pipe front = .error e) :
      Rejects g line e

/-- What a line comes to that passes every check. -/
inductive Grammar.Accepts (g : Grammar) (line : String) : Plan → Prop where
  | intro {words front : List String} {redirection : Option Redirection}
      {segs : List (List String)} (hw : g.words line = .ok words)
      (hr : g.extractRedirection words = .ok (front, redirection))
      (hb : front = [] → redirection = none) (hs : segments g.pipe front = .ok segs) :
      Accepts g line ⟨segs, redirection⟩

theorem Grammar.plan_of_extractRedirection {words front : List String}
    {redirection : Option Redirection} (hw : g.words line = .ok words)
    (hr : g.extractRedirection words = .ok (front, redirection)) :
    g.plan line =
      if front.isEmpty && redirection.isSome then .error (.emptyStage 0)
      else (segments g.pipe front).map fun segs => ⟨segs, redirection⟩ := by
  rw [plan, parse, hw, Except.bind, hr]
  rfl

/-- Every line is rejected for one reason or accepted as one plan. -/
theorem Grammar.rejects_or_accepts (g : Grammar) (line : String) :
    (∃ e, g.Rejects line e) ∨ ∃ p, g.Accepts line p := by
  cases hw : g.words line with
  | error e => exact .inl ⟨e, .words hw⟩
  | ok words =>
    cases hr : g.extractRedirection words with
    | error e => exact .inl ⟨e, .redirection hw hr⟩
    | ok found =>
      obtain ⟨front, redirection⟩ := found
      by_cases hb : front = [] → redirection = none
      · cases hs : segments g.pipe front with
        | error e => exact .inl ⟨e, .segments hw hr hb hs⟩
        | ok segs => exact .inr ⟨⟨segs, redirection⟩, .intro hw hr hb hs⟩
      · obtain ⟨rfl, hne⟩ := Classical.not_imp.mp hb
        obtain ⟨r, rfl⟩ := Option.ne_none_iff_exists'.mp hne
        exact .inl ⟨.emptyStage 0, .bare hw hr⟩

theorem Grammar.Rejects.plan_eq {e : LineError} (h : g.Rejects line e) :
    g.plan line = .error e := by
  cases h with
  | words h =>
    rw [plan, parse, h]
    rfl
  | redirection hw h =>
    rw [plan, parse, hw, Except.bind, h]
    rfl
  | bare hw h => rw [plan_of_extractRedirection hw h]; rfl
  | segments hw hr hb h =>
    rw [plan_of_extractRedirection hw hr, h, if_neg (by simpa using hb)]
    rfl

theorem Grammar.Accepts.plan_eq {p : Plan} (h : g.Accepts line p) : g.plan line = .ok p := by
  obtain ⟨hw, hr, hb, hs⟩ := h
  rw [plan_of_extractRedirection hw hr, hs, if_neg (by simpa using hb)]
  rfl

/-- An opener that does as another one and keeps a list of what it is asked for. -/
def Opener.recorded (opener : Opener σ) : Opener (List (String × Redirection.Mode) × σ) :=
  fun path mode state streams =>
    let (answer, after, left) := opener path mode state.2 streams
    (answer, (state.1 ++ [(path, mode)], after), left)

/-! What becomes of a line, case by case. -/

theorem Grammar.Rejects.submit {e : LineError} (h : g.Rejects line e)
    (opener? : Option (Opener σ)) :
    g.submit opener? line ends state streams = (.error (.line e), state, streams) := by
  rw [Grammar.submit, h.plan_eq]

/-- A plan that is carried out between two ends. -/
def Plan.wired (p : Plan) (ends : Ends) (applied : Bool) (state : σ) (streams : Streams) :
    Except ShellError Submission × σ × Streams :=
  (.ok ⟨(wire p.segments ends.input ends.output streams).1, p.redirection, applied⟩, state,
    (wire p.segments ends.input ends.output streams).2)

theorem Grammar.Accepts.submit_unasked {p : Plan} (h : g.Accepts line p)
    {opener? : Option (Opener σ)} (hn : opener? = none ∨ p.redirection = none) :
    g.submit opener? line ends state streams = p.wired ends false state streams := by
  have hc : connect opener? p.redirection ends state streams =
      (.ok (ends, false), state, streams) := by
    rcases hn with rfl | hr
    · rfl
    · rw [hr]
      cases opener? <;> rfl
  rw [Grammar.submit, h.plan_eq]
  simp only [hc]
  rfl

theorem Grammar.Accepts.submit_asked {segs : List (List String)} {r : Redirection}
    (h : g.Accepts line ⟨segs, some r⟩) (opener : Opener σ) :
    g.submit (some opener) line ends state streams =
      match opener r.target r.mode state streams with
      | (.error reason, after, left) => (.error (.unopened r.target reason), after, left)
      | (.ok target, after, left) =>
        Plan.wired ⟨segs, some r⟩ (ends.redirect target r.mode) true after left := by
  rw [Grammar.submit, h.plan_eq]
  rcases ho : opener r.target r.mode state streams with ⟨_ | target, after, left⟩
  · simp only [connect, ho]
  · simp only [connect, ho]
    rfl

theorem Plan.stages_wired (p : Plan) (ends : Ends) (applied : Bool) (state : σ)
    (streams : Streams) :
    ∃ stages, (p.wired ends applied state streams).1 = .ok ⟨stages, p.redirection, applied⟩ ∧
      stages.map Stage.words = p.segments :=
  ⟨_, rfl, wire_words p.segments ends.input ends.output streams⟩

/-- The record makes no difference to the line. -/
theorem submit_recorded (g : Grammar) (opener? : Option (Opener σ)) (line : String) (ends : Ends)
    (requests : List (String × Redirection.Mode)) (state : σ) (streams : Streams) :
    let result := g.submit (opener?.map Opener.recorded) line ends (requests, state) streams
    g.submit opener? line ends state streams = (result.1, result.2.1.2, result.2.2) := by
  intro result
  rcases g.rejects_or_accepts line with ⟨e, he⟩ | ⟨⟨segs, redirection⟩, hp⟩
  · simp only [result, he.submit]
  · cases opener? with
    | none => simp only [result, Option.map_none, hp.submit_unasked (.inl rfl), Plan.wired]
    | some opener =>
      cases redirection with
      | none => simp only [result, hp.submit_unasked (.inr rfl), Plan.wired]
      | some r =>
        simp only [result, Option.map_some, hp.submit_asked, Opener.recorded]
        rcases opener r.target r.mode state streams with ⟨_ | target, after, left⟩ <;> rfl

/-- Whatever the line, the opener and the streams: the opener is asked exactly when the line passes
every check and has a redirection, and then once, for the target and the mode of it. A rejected line
fails by the first check that it does not pass and changes nothing. When the opener fails, so does
the line, with the opener's reason. Otherwise the line is submitted; and the streams that there are,
once the opener is done with them, keep what they hold. -/
theorem submit_asks_once (g : Grammar) (opener? : Option (Opener σ)) (line : String) (ends : Ends)
    (state : σ) (streams : Streams) :
    let result := g.submit (opener?.map Opener.recorded) line ends ([], state) streams
    let outcome := result.1
    let requests := result.2.1.1
    let after := result.2.1.2
    let left := result.2.2
    g.submit opener? line ends state streams = (outcome, after, left) ∧
    (requests ≠ [] ↔ opener?.isSome ∧ ∃ segs r, g.Accepts line ⟨segs, some r⟩) ∧
    (∀ e, g.Rejects line e →
      outcome = .error (.line e) ∧ (ShellError.line e).isUserError = true ∧ requests = [] ∧
      after = state ∧ left = streams) ∧
    (∀ p, g.Accepts line p → opener? = none ∨ p.redirection = none →
      (∃ stages, outcome = .ok ⟨stages, p.redirection, false⟩ ∧
        stages.map Stage.words = p.segments) ∧
      requests = [] ∧ after = state ∧ streams.KeptIn left) ∧
    (∀ opener segs r, opener? = some opener → g.Accepts line ⟨segs, some r⟩ →
      let asked := opener r.target r.mode state streams
      (∀ reason, asked.1 = .error reason → outcome = .error (.unopened r.target reason) ∧
        (ShellError.unopened r.target reason).isUserError = false ∧ left = asked.2.2) ∧
      (∀ target, asked.1 = .ok target → ∃ stages, outcome = .ok ⟨stages, some r, true⟩ ∧
        stages.map Stage.words = segs) ∧
      requests = [(r.target, r.mode)] ∧ after = asked.2.1 ∧ asked.2.2.KeptIn left) ∧
    ∀ e, outcome = .error e → (∃ fault, g.Rejects line fault ∧ e = .line fault) ∨
      ∃ opener segs r reason, opener? = some opener ∧ g.Accepts line ⟨segs, some r⟩ ∧
        (opener r.target r.mode state streams).1 = .error reason ∧
        e = .unopened r.target reason := by
  intro result outcome requests after left
  have hrejected (e : LineError) (he : g.Rejects line e) :
      outcome = .error (.line e) ∧ (ShellError.line e).isUserError = true ∧ requests = [] ∧
        after = state ∧ left = streams := by
    have hresult : result = _ := he.submit (opener?.map Opener.recorded)
    exact ⟨congrArg (·.1) hresult, rfl, congrArg (·.2.1.1) hresult, congrArg (·.2.1.2) hresult,
      congrArg (·.2.2) hresult⟩
  have hunasked (p : Plan) (hp : g.Accepts line p) (hn : opener? = none ∨ p.redirection = none) :
      (∃ stages, outcome = .ok ⟨stages, p.redirection, false⟩ ∧
          stages.map Stage.words = p.segments) ∧
        requests = [] ∧ after = state ∧ streams.KeptIn left := by
    have hresult : result = _ :=
      hp.submit_unasked (hn.imp_left fun hopener => Option.map_eq_none_iff.mpr hopener)
    simp only [outcome, requests, after, left, hresult]
    exact ⟨p.stages_wired .., rfl, rfl, Streams.keptIn_wire _ _ _ _⟩
  have hasked (opener : Opener σ) (segs : List (List String)) (r : Redirection)
      (ho : opener? = some opener) (hp : g.Accepts line ⟨segs, some r⟩) :
      let asked := opener r.target r.mode state streams
      (∀ reason, asked.1 = .error reason → outcome = .error (.unopened r.target reason) ∧
        (ShellError.unopened r.target reason).isUserError = false ∧ left = asked.2.2) ∧
      (∀ target, asked.1 = .ok target → ∃ stages, outcome = .ok ⟨stages, some r, true⟩ ∧
        stages.map Stage.words = segs) ∧
      requests = [(r.target, r.mode)] ∧ after = asked.2.1 ∧ asked.2.2.KeptIn left := by
    have hresult : result = g.submit (some opener.recorded) line ends ([], state) streams := by
      simp only [result, ho, Option.map_some]
    rw [hp.submit_asked opener.recorded] at hresult
    simp only [outcome, requests, after, left, hresult, Opener.recorded]
    rcases opener r.target r.mode state streams with ⟨reason | target, asked, opened⟩
    · refine ⟨?_, by simp, rfl, rfl, Streams.KeptIn.refl opened⟩
      rintro _ ⟨rfl⟩
      exact ⟨rfl, rfl, rfl⟩
    · refine ⟨by simp, fun _ _ => Plan.stages_wired .., rfl, rfl, Streams.keptIn_wire _ _ _ _⟩
  -- A line is rejected, or accepted without a request, or accepted with one.
  have hcases : (∃ e, g.Rejects line e) ∨
      (∃ p, g.Accepts line p ∧ (opener? = none ∨ p.redirection = none)) ∨
      ∃ opener segs r, opener? = some opener ∧ g.Accepts line ⟨segs, some r⟩ := by
    refine (g.rejects_or_accepts line).imp_right ?_
    rintro ⟨⟨segs, redirection⟩, hp⟩
    cases opener? with
    | none => exact .inl ⟨_, hp, .inl rfl⟩
    | some opener =>
      cases redirection with
      | none => exact .inl ⟨_, hp, .inr rfl⟩
      | some r => exact .inr ⟨opener, segs, r, rfl, hp⟩
  refine ⟨submit_recorded g opener? line ends [] state streams, ⟨?_, ?_⟩, hrejected, hunasked,
    hasked, ?_⟩
  · intro hne
    rcases hcases with ⟨e, he⟩ | ⟨p, hp, hn⟩ | ⟨opener, segs, r, ho, hp⟩
    · exact absurd (hrejected e he).2.2.1 hne
    · exact absurd (hunasked p hp hn).2.1 hne
    · exact ⟨ho ▸ rfl, segs, r, hp⟩
  · rintro ⟨ho, segs, r, hp⟩
    obtain ⟨opener, ho⟩ := Option.isSome_iff_exists.mp ho
    rw [(hasked opener segs r ho hp).2.2.1]
    exact List.cons_ne_nil _ _
  · intro e he
    rcases hcases with ⟨fault, hf⟩ | ⟨p, hp, hn⟩ | ⟨opener, segs, r, ho, hp⟩
    · exact .inl ⟨fault, hf, Except.error.inj (he.symm.trans (hrejected fault hf).1)⟩
    · obtain ⟨stages, hs, -⟩ := (hunasked p hp hn).1
      rw [hs] at he
      contradiction
    · obtain ⟨herror, hok, -⟩ := hasked opener segs r ho hp
      cases ha : (opener r.target r.mode state streams).1 with
      | error reason =>
        exact .inr ⟨opener, segs, r, reason, ho, hp, ha,
          Except.error.inj (he.symm.trans (herror reason ha).1)⟩
      | ok target =>
        obtain ⟨stages, hs, -⟩ := hok target ha
        rw [hs] at he
        contradiction

end TerminalShell.Command
