import TerminalShell.Proofs.Channel.SharedTerminal
import TerminalShell.Proofs.Text.Splitting

/-!
What a thread types while others read, type, interrupt and close. A close may come between any two
of its calls, and nothing tells it then; but the last of them is a write, even if of nothing, so
that a close before it does not stay hidden.
-/
namespace TerminalShell.Channel

namespace ByteQueue

/-- The event of a call that has reached an open queue: what is written stands in one piece behind
what was there, and an interrupt is pending. -/
inductive Event.Delivers (e : Event) : Prop where
  | write {bytes old : List UInt8} {interrupted : Bool} (hc : e.call = .write bytes)
      (hb : e.before = .opened old interrupted) (ha : e.after = .opened (old ++ bytes) interrupted)
  | signal {old : List UInt8} {interrupted : Bool} (hc : e.call = .signalInterrupt)
      (hb : e.before = .opened old interrupted) (ha : e.after = .opened old true)

/-- Nothing closes a queue before an event that finds it open. -/
theorem Run.call_ne_close {q last : ByteQueue} {older newer : List Event} {e : Event}
    (h : Run q (older ++ e :: newer) last) (ho : e.before.isClosed = false) :
    ∀ x ∈ older, x.call ≠ .close := by
  intro x hx hclose
  obtain ⟨hold, -, -⟩ := h.at_event
  obtain ⟨first, second, rfl⟩ := List.append_of_mem hx
  obtain ⟨-, hstep, hsecond⟩ := hold.at_event
  rw [hclose, call?, Option.some.injEq, Prod.mk.injEq] at hstep
  rw [(hsecond.refused hstep.2.symm).1] at ho
  contradiction

end ByteQueue

namespace Terminal

theorem Emission.delivers {e : Emission} {x : ByteQueue.Event} (hc : x.call = e.call)
    (hx : x.before.call? x.call = some (x.reply, x.after)) (ho : x.before.isClosed = false) :
    x.Delivers := by
  cases hb : x.before with
  | closed =>
    rw [hb] at ho
    contradiction
  | opened old interrupted =>
    rw [hc, e.call?_call, hb, Option.some.injEq, Prod.mk.injEq] at hx
    cases e with
    | data bytes => exact .write hc hb hx.2.symm
    | signal => exact .signal hc hb hx.2.symm

theorem map_call_emissions (interruptByte : UInt8) (bytes : List UInt8) :
    (emissions interruptByte bytes).map Emission.call =
      ((bytes.splitOn interruptByte).map ByteQueue.Call.write).intersperse .signalInterrupt := by
  rw [emissions, Text.map_intersperse, List.map_map, Text.pieces_eq_splitOnP]
  rfl

end Terminal

open Terminal

namespace SharedTerminal

variable {ι : Type}

/-- The call that a move makes on the keystrokes' queue. -/
def Move.input? : Move → Option ByteQueue.Event
  | .call .input e => some e
  | _ => none

/-- What happens to the keystrokes' queue, and by whom. -/
def inputEvents (moves : List (ι × Move)) : List (ι × ByteQueue.Event) :=
  moves.filterMap fun m => m.2.input?.map (m.1, ·)

variable [DecidableEq ι]

/-- What one thread does to the keystrokes' queue. -/
def eventsOf (i : ι) (moves : List (ι × Move)) : List ByteQueue.Event :=
  ((inputEvents moves).filter (·.1 = i)).map Prod.snd

variable {s s' : SharedTerminal ι} {i j : ι} {moves : List (ι × Move)}

omit [DecidableEq ι] in
theorem inputEvents_cons (i : ι) (m : Move) (moves : List (ι × Move)) :
    inputEvents ((i, m) :: moves) = m.input?.toList.map (i, ·) ++ inputEvents moves := by
  cases h : m.input? <;> simp [inputEvents, h]

theorem eventsOf_cons_self (i : ι) (m : Move) (moves : List (ι × Move)) :
    eventsOf i ((i, m) :: moves) = m.input?.toList ++ eventsOf i moves := by
  cases h : m.input? <;> simp [eventsOf, inputEvents_cons, h]

theorem eventsOf_cons_of_ne (h : j ≠ i) (m : Move) (moves : List (ι × Move)) :
    eventsOf i ((j, m) :: moves) = eventsOf i moves := by
  cases hm : m.input? <;> simp [eventsOf, inputEvents_cons, hm, h]

theorem mem_eventsOf_iff {e : ByteQueue.Event} :
    e ∈ eventsOf i moves ↔ (i, e) ∈ inputEvents moves := by
  simp [eventsOf]

theorem Step.input {m : Move} (h : Step i s m s') :
    ByteQueue.Run s.terminal.input m.input?.toList s'.terminal.input := by
  cases h with
  | enter | look => exact .nil _
  | @call op d c left reply q hi hq =>
    cases d with
    | input => exact .cons hq (.nil _)
    | output => exact .nil _

/-- However threads interleave, the keystrokes' queue is called in some order. -/
theorem Run.input (h : Run s moves s') :
    ByteQueue.Run s.terminal.input ((inputEvents moves).map Prod.snd) s'.terminal.input := by
  induction h with
  | nil s => exact .nil _
  | @cons s s' last i m moves step rest ih =>
    rw [inputEvents_cons, List.map_append, List.map_map, Function.comp_def, List.map_id']
    exact step.input.append ih

/-- A thread that enters nothing does nothing. -/
theorem Run.idle {last : Option Reply} (h : Run s moves s') (hi : s.caller i = .idle last)
    (ho : ∀ op, (i, .enter op) ∉ moves) :
    s'.caller i = .idle last ∧ eventsOf i moves = [] := by
  induction h with
  | nil s => exact ⟨hi, rfl⟩
  | @cons s s' _ j m moves step rest ih =>
    have hrest : ∀ op, (i, .enter op) ∉ moves := fun op hm => ho op (List.mem_cons_of_mem _ hm)
    by_cases hj : j = i
    · subst hj
      cases step with
      | enter op _ => exact absurd List.mem_cons_self (ho op)
      | look h' | call h' _ =>
        rw [hi] at h'
        contradiction
    · rw [eventsOf_cons_of_ne hj]
      exact ih ((step.caller_of_ne (Ne.symm hj)).trans hi) hrest

/-- A thread that has returned keeps its reply. -/
theorem Run.returned {t : Terminal} {answer reply : Reply}
    (h : Run (s.put i (.idle (some answer)) t) moves s') (ho : ∀ op, (i, .enter op) ∉ moves)
    (hr : s'.caller i = .idle (some reply)) : reply = answer ∧ eventsOf i moves = [] := by
  obtain ⟨hidle, hnone⟩ := h.idle (caller_put_self ..) ho
  rw [hidle, Caller.idle.injEq, Option.some.injEq] at hr
  exact ⟨hr.symm, hnone⟩

/-- What a thread can do next whose next deed is an emission. -/
theorem Step.eq_of_emission {m : Move} {op : Operation} {e : Emission} {left : List Deed}
    (h : Step i s m s') (hi : s.caller i = .inside op (e.deed :: left)) :
    m = .call .input
        ⟨e.call, e.reply s.terminal.input, s.terminal.input, Emission.apply s.terminal.input e⟩ ∧
      s' = s.put i (.resume op left (e.reply s.terminal.input))
        { s.terminal with input := Emission.apply s.terminal.input e } := by
  cases h with
  | enter _ h' =>
    rw [hi] at h'
    contradiction
  | look h' =>
    rw [hi] at h'
    simp [Emission.deed] at h'
  | call h' hq =>
    rw [hi] at h'
    simp only [Emission.deed, Caller.inside.injEq, List.cons.injEq, Deed.call.injEq] at h'
    obtain ⟨rfl, ⟨rfl, rfl⟩, rfl⟩ := h'
    rw [e.call?_call, Option.some.injEq, Prod.mk.injEq] at hq
    obtain ⟨rfl, rfl⟩ := hq
    exact ⟨rfl, rfl⟩

/-- How a thread ends that types: all its calls have reached an open queue, or the queue is closed
and the first of them have. -/
inductive Typed (bytes : List UInt8) (es : List Emission) (reply : Reply)
    (events : List ByteQueue.Event) (last : ByteQueue) : Prop where
  | accepted (hr : reply = .wrote (.ok bytes.length))
      (hc : events.map ByteQueue.Event.call = es.map Emission.call)
      (ho : ∀ x ∈ events, x.before.isClosed = false)
  | refused (hr : reply = .wrote (.error .closed)) (hl : last = .closed)
      (hc : (events.filter (!·.before.isClosed)).map ByteQueue.Event.call <+:
        es.map Emission.call)

variable {bytes : List UInt8} {es : List Emission} {reply : Reply}
  {events : List ByteQueue.Event} {last : ByteQueue}

theorem Typed.cons {e : Emission} {x : ByteQueue.Event} (h : Typed bytes es reply events last)
    (hc : x.call = e.call) (ho : x.before.isClosed = false) :
    Typed bytes (e :: es) reply (x :: events) last := by
  cases h with
  | accepted hr hcalls hopen =>
    exact .accepted hr (by simp [hc, hcalls]) (List.forall_mem_cons.mpr ⟨ho, hopen⟩)
  | refused hr hl hcalls =>
    refine .refused hr hl ?_
    simpa [ho, hc] using hcalls

theorem typed_of_isClosed (hl : last = .closed) (hc : ∀ x ∈ events, x.before.isClosed = true) :
    Typed bytes es (.wrote (.error .closed)) events last := by
  have hnone : events.filter (!·.before.isClosed) = [] := by
    rw [List.filter_eq_nil_iff]
    intro x hx
    simp [hc x hx]
  exact .refused rfl hl (by simp [hnone])

/-- Behind a close nothing is accepted, if anything is left to type. -/
theorem Typed.reply_of_isClosed (h : Typed bytes es reply events last) (hes : es ≠ [])
    (hc : ∀ x ∈ events, x.before.isClosed = true) : reply = .wrote (.error .closed) := by
  cases h with
  | refused hr _ _ => exact hr
  | accepted _ hcalls hopen =>
    cases events with
    | nil => exact absurd (List.map_eq_nil_iff.mp hcalls.symm) hes
    | cons x events =>
      have hx := hc x List.mem_cons_self
      rw [hopen x List.mem_cons_self] at hx
      contradiction

/-- What reaches an open queue is an emission. -/
theorem Typed.exists_emission (h : Typed bytes es reply events last) {x : ByteQueue.Event}
    (hx : x ∈ events) (ho : x.before.isClosed = false) : ∃ e : Emission, x.call = e.call := by
  have hmem : x.call ∈ es.map Emission.call := by
    cases h with
    | accepted _ hcalls _ => exact hcalls ▸ List.mem_map_of_mem hx
    | refused _ _ hcalls =>
      exact hcalls.subset (List.mem_map_of_mem (List.mem_filter.mpr ⟨hx, by simp [ho]⟩))
  obtain ⟨e, -, he⟩ := List.mem_map.mp hmem
  exact ⟨e, he.symm⟩

theorem Run.of_isClosed (h : Run s moves s') (hc : s.terminal.input.isClosed = true) (i : ι) :
    s'.terminal.input = .closed ∧ ∀ x ∈ eventsOf i moves, x.before.isClosed = true := by
  obtain ⟨hl, -, hrefused⟩ := h.input.refused ((ByteQueue.isClosed_iff _).mp hc)
  refine ⟨hl, fun x hx => ?_⟩
  have hx := List.mem_map_of_mem (f := Prod.snd) (mem_eventsOf_iff.mp hx)
  exact (ByteQueue.isClosed_iff _).mpr (hrefused x hx).before_eq

/-- The next move of a thread inside an operation that it is going to leave. -/
theorem Run.exists_next {op : Operation} {left : List Deed} {result : Option Reply}
    (h : Run s moves s') (hi : s.caller i = .inside op left) (hr : s'.caller i = .idle result) :
    ∃ middle m next newer, middle.caller i = .inside op left ∧ Step i middle m next ∧
      Run next newer s' ∧ newer ⊆ moves ∧ eventsOf i moves = eventsOf i ((i, m) :: newer) := by
  induction h with
  | nil s =>
    rw [hi] at hr
    contradiction
  | @cons s middle s' j m moves step rest ih =>
    by_cases hj : j = i
    · subst hj
      exact ⟨s, m, middle, moves, hi, step, rest, List.subset_cons_self .., rfl⟩
    · obtain ⟨s₁, m₁, s₂, newer, hi, hstep, hrest, hsub, hevents⟩ :=
        ih ((step.caller_of_ne (Ne.symm hj)).trans hi) hr
      exact ⟨s₁, m₁, s₂, newer, hi, hstep, hrest, List.subset_cons_of_subset _ hsub,
        (eventsOf_cons_of_ne hj m moves).trans hevents⟩

/-- What is left to type, typed while others do what they want. -/
theorem Run.typed (h : Run s moves s') (hes : Emission.EndsInData es)
    (hi : s.caller i = .inside (.screen (.write bytes)) (es.map Emission.deed))
    (ho : ∀ op, (i, .enter op) ∉ moves) (hr : s'.caller i = .idle (some reply)) :
    Typed bytes es reply (eventsOf i moves) s'.terminal.input := by
  induction hes generalizing s moves with
  | last piece =>
    obtain ⟨middle, m, next, newer, hi, step, rest, hsub, hevents⟩ := h.exists_next hi hr
    have hrun := Run.cons step rest
    obtain ⟨rfl, rfl⟩ := step.eq_of_emission hi
    rw [List.map_nil, Caller.resume_nil, Emission.reply_data] at rest
    obtain ⟨rfl, hnone⟩ := rest.returned (fun op hm => ho op (hsub hm)) hr
    rw [hevents]
    cases hc : middle.terminal.input.isClosed with
    | true =>
      obtain ⟨hl, hclosed⟩ := hrun.of_isClosed hc i
      exact typed_of_isClosed hl hclosed
    | false =>
      rw [eventsOf_cons_self, hnone]
      exact .accepted rfl rfl (by simpa [Move.input?] using hc)
  | @cons e es hes ih =>
    obtain ⟨middle, m, next, newer, hi, step, rest, hsub, hevents⟩ := h.exists_next hi hr
    have hrun := Run.cons step rest
    obtain ⟨rfl, rfl⟩ := step.eq_of_emission hi
    have hnewer : ∀ op, (i, .enter op) ∉ newer := fun op hm => ho op (hsub hm)
    rw [hevents]
    cases hc : middle.terminal.input.isClosed with
    | true =>
      obtain ⟨hl, hclosed⟩ := hrun.of_isClosed hc i
      suffices reply = .wrote (.error .closed) by
        rw [this]
        exact typed_of_isClosed hl hclosed
      cases e with
      | data piece =>
        rw [Emission.reply_data, hc, if_pos rfl, Caller.resume_of_isFailure rfl] at rest
        exact (rest.returned hnewer hr).1
      | signal =>
        -- A signal is not refused, so the thread goes on; what it still has to write is.
        rw [Caller.resume_of_ne_nil rfl hes.map_ne_nil] at rest
        rw [eventsOf_cons_self] at hclosed
        exact (ih rest (caller_put_self ..) hnewer).reply_of_isClosed hes.ne_nil
          (List.forall_mem_cons.mp hclosed).2
    | false =>
      rw [Caller.resume_of_ne_nil (e.isFailure_reply hc).1 hes.map_ne_nil] at rest
      rw [eventsOf_cons_self]
      exact (ih rest (caller_put_self ..) hnewer).cons rfl hc

/-- A whole text, from the look at the queue on. -/
theorem Run.typed_of_look (h : Run s moves s') (hes : Emission.EndsInData es)
    (hi : s.caller i = .inside (.screen (.write bytes)) (.look :: es.map Emission.deed))
    (ho : ∀ op, (i, .enter op) ∉ moves) (hr : s'.caller i = .idle (some reply)) :
    Typed bytes es reply (eventsOf i moves) s'.terminal.input := by
  obtain ⟨middle, m, next, newer, hi, step, rest, hsub, hevents⟩ := h.exists_next hi hr
  have hnewer : ∀ op, (i, .enter op) ∉ newer := fun op hm => ho op (hsub hm)
  rw [hevents, eventsOf_cons_self]
  cases step with
  | enter _ h' | call h' _ =>
    rw [hi] at h'
    simp at h'
  | look h' =>
    rw [hi] at h'
    simp only [Caller.inside.injEq, List.cons.injEq, true_and] at h'
    obtain ⟨rfl, rfl⟩ := h'
    cases hc : middle.terminal.input.isClosed with
    | true =>
      obtain ⟨hl, hclosed⟩ := rest.of_isClosed hc i
      rw [hc, if_pos rfl] at rest
      obtain ⟨rfl, -⟩ := rest.returned hnewer hr
      exact typed_of_isClosed hl hclosed
    | false =>
      rw [hc, if_neg Bool.false_ne_true] at rest
      exact rest.typed hes (caller_put_self ..) hnewer hr

/-- All interleavings of a thread that types with whatever other threads do: it returns in one of
two ways. Either all its bytes are accepted, and all its calls have reached an open queue; or it
fails as the queue is closed, and the first of them have. Its calls are the runs of bytes between
interrupt bytes, each in one piece, with an interrupt between any two; those that have reached an
open queue have had their effect before any close. -/
theorem write_among_others
    (h : Run s ((i, .enter (.screen (.write bytes))) :: moves) s')
    (ho : ∀ op, (i, .enter op) ∉ moves) (hr : s'.caller i = .idle (some reply)) :
    ∃ runs : List (List UInt8),
      [s.terminal.interruptByte].intercalate runs = bytes ∧
      (∀ run ∈ runs, s.terminal.interruptByte ∉ run) ∧
      let calls := (runs.map ByteQueue.Call.write).intersperse .signalInterrupt
      let delivered := (eventsOf i moves).filter (!·.before.isClosed)
      ByteQueue.Run s.terminal.input ((inputEvents moves).map Prod.snd) s'.terminal.input ∧
      (∀ older x newer, inputEvents moves = older ++ (i, x) :: newer →
        x.before.isClosed = false → x.Delivers ∧ ∀ y ∈ older, y.2.call ≠ .close) ∧
      (reply = .wrote (.ok bytes.length) ∧ eventsOf i moves = delivered ∧
          delivered.map ByteQueue.Event.call = calls ∨
        reply = .wrote (.error .closed) ∧ s'.terminal.input = .closed ∧
          delivered.map ByteQueue.Event.call <+: calls) := by
  cases h with
  | cons step rest =>
    cases step with
    | enter _ hi =>
      have htyped := rest.typed_of_look (endsInData_emissions s.terminal.interruptByte bytes)
        (caller_put_self ..) ho hr
      have hinput := rest.input
      refine ⟨bytes.splitOn s.terminal.interruptByte, List.intercalate_splitOn _, ?_, hinput,
        ?_, ?_⟩
      · intro run hrun hb
        rw [List.splitOn, ← Text.pieces_eq_splitOnP] at hrun
        simpa using Text.not_isSeparator_of_mem_pieces hrun _ hb
      · intro older x newer hmoves hopen
        rw [hmoves, List.map_append, List.map_cons] at hinput
        obtain ⟨e, he⟩ := htyped.exists_emission (mem_eventsOf_iff.mpr (by simp [hmoves])) hopen
        refine ⟨Emission.delivers he hinput.at_event.2.1 hopen, fun y hy => ?_⟩
        exact hinput.call_ne_close hopen y.2 (List.mem_map_of_mem hy)
      · rw [← map_call_emissions]
        cases htyped with
        | accepted hreply hcalls hopen =>
          have hall : (eventsOf i moves).filter (!·.before.isClosed) = eventsOf i moves := by
            rw [List.filter_eq_self]
            intro x hx
            simp [hopen x hx]
          exact .inl ⟨hreply, hall.symm, by rw [hall, hcalls]⟩
        | refused hreply hl hcalls => exact .inr ⟨hreply, hl, hcalls⟩

/-- Another thread closes behind the first byte: the interrupt goes nowhere and the last byte is
refused. -/
theorem write_among_others_closed :
    ∃ (moves : List (Bool × Move)) (last : SharedTerminal Bool),
      Run {} ((false, .enter (.screen (.write [97, 3, 98]))) :: moves) last ∧
      (∀ op, (false, .enter op) ∉ moves) ∧
      last.caller false = .idle (some (.wrote (.error .closed))) ∧
      (eventsOf false moves).map ByteQueue.Event.call =
        [.write [97], .signalInterrupt, .write [98]] ∧
      last.terminal.input = .closed ∧
      ∃ runs : List (List UInt8), [3].intercalate runs = [97, 3, 98] ∧
        [.write [97]] <+: (runs.map ByteQueue.Call.write).intersperse .signalInterrupt := by
  obtain ⟨moves, last, h, ho, hr, hcalls, hdelivered⟩ :
      ∃ (moves : List (Bool × Move)) (last : SharedTerminal Bool),
        Run {} ((false, .enter (.screen (.write [97, 3, 98]))) :: moves) last ∧
        (∀ op, (false, .enter op) ∉ moves) ∧
        last.caller false = .idle (some (.wrote (.error .closed))) ∧
        (eventsOf false moves).map ByteQueue.Event.call =
          [.write [97], .signalInterrupt, .write [98]] ∧
        ((eventsOf false moves).filter (!·.before.isClosed)).map ByteQueue.Event.call =
          [.write [97]] := by
    refine ⟨_, _, .cons (.enter _ rfl) <| .cons (i := false) (.look rfl) <|
      .cons (i := false) (.call rfl rfl) <| .cons (i := true) (.enter (.command .close) rfl) <|
      .cons (i := true) (.call rfl rfl) <| .cons (i := false) (.call rfl rfl) <|
      .cons (i := false) (.call rfl rfl) <| .nil _, ?_, rfl, rfl, rfl⟩
    simp
  obtain ⟨runs, hruns, -, -, -, ⟨hreply, -, -⟩ | ⟨-, hl, hprefix⟩⟩ :=
    write_among_others h ho hr
  · simp at hreply
  · rw [hdelivered] at hprefix
    exact ⟨moves, last, h, ho, hr, hcalls, hl, runs, hruns, hprefix⟩

end SharedTerminal

end TerminalShell.Channel
