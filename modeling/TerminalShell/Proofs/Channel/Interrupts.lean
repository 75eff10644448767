import Mathlib.Data.List.Induction
import TerminalShell.Proofs.Channel.QueueConservation

/-!
Interrupts over whole runs of one queue. A read reports one exactly when it finds no byte and there
has been a signal since the last report, so signals collapse, wait while there are bytes, are
reported at most once, and are gone when the queue closes.
-/
namespace TerminalShell.Channel.ByteQueue

namespace Event

def isSignal (e : Event) : Bool := e.call == .signalInterrupt

/-- A read that has told its caller of an interrupt. -/
def isInterruption (e : Event) : Bool :=
  match e.reply with
  | .taken (.error .interrupted) => true
  | _ => false

theorem isInterruption_iff {e : Event} :
    e.isInterruption = true ↔ e.reply = .taken (.error .interrupted) := by
  unfold isInterruption
  split
  next h => simp [h]
  next h => simpa using h

end Event

def signals (events : List Event) : Nat := events.countP Event.isSignal

def interruptions (events : List Event) : Nat := events.countP Event.isInterruption

theorem signals_cons (e : Event) (events : List Event) :
    signals (e :: events) = e.isSignal.toNat + signals events := by
  rw [signals, List.countP_cons, Nat.add_comm, signals]
  cases e.isSignal <;> rfl

theorem interruptions_cons (e : Event) (events : List Event) :
    interruptions (e :: events) = e.isInterruption.toNat + interruptions events := by
  rw [interruptions, List.countP_cons, Nat.add_comm, interruptions]
  cases e.isInterruption <;> rfl

/-- There has been a signal since the last report of an interrupt, or at all if there is none. -/
def Signalled (events : List Event) : Prop :=
  ∃ older signal newer, events = older ++ signal :: newer ∧ signal.call = .signalInterrupt ∧
    ∀ e ∈ newer, e.reply ≠ .taken (.error .interrupted)

theorem not_signalled_nil : ¬ Signalled [] := by
  rintro ⟨older, signal, newer, h, -⟩
  simp at h

theorem signalled_concat {events : List Event} {e : Event} :
    Signalled (events ++ [e]) ↔
      e.call = .signalInterrupt ∨
        Signalled events ∧ e.reply ≠ .taken (.error .interrupted) := by
  constructor
  · rintro ⟨older, signal, newer, h, hs, hn⟩
    rcases List.eq_nil_or_concat newer with rfl | ⟨front, last, rfl⟩
    · obtain ⟨-, he⟩ := List.append_inj' h rfl
      rw [List.cons.injEq] at he
      exact .inl (he.1 ▸ hs)
    · rw [List.concat_eq_append, ← List.cons_append, ← List.append_assoc] at h
      obtain ⟨rfl, he⟩ := List.append_inj' h rfl
      rw [List.cons.injEq] at he
      rw [List.concat_eq_append, List.forall_mem_append] at hn
      exact .inr ⟨⟨older, signal, front, rfl, hs, hn.1⟩, he.1 ▸ hn.2 last (by simp)⟩
  · rintro (hs | ⟨⟨older, signal, newer, rfl, hs, hn⟩, he⟩)
    · exact ⟨events, e, [], rfl, hs, by simp⟩
    · refine ⟨older, signal, newer ++ [e], by simp, hs, ?_⟩
      rw [List.forall_mem_append]
      exact ⟨hn, by simpa using he⟩

theorem Signalled.append {older newer : List Event} (h : Signalled older)
    (hn : ∀ e ∈ newer, e.reply ≠ .taken (.error .interrupted)) : Signalled (older ++ newer) := by
  obtain ⟨first, signal, second, rfl, hs, hsecond⟩ := h
  exact ⟨first, signal, second ++ newer, by simp, hs, List.forall_mem_append.mpr ⟨hsecond, hn⟩⟩

section Step

variable {before after : ByteQueue} {c : Call} {reply : Reply}

/-- Only a read of an open queue without bytes reports an interrupt, and only a pending one. -/
theorem call?_interruption_iff (h : before.call? c = some (reply, after)) :
    reply = .taken (.error .interrupted) ↔
      (∃ patience n, c = .read patience n) ∧ before = .opened [] true := by
  cases c with
  | read patience n =>
    obtain ⟨rfl, rfl⟩ := call?_read_eq_some h
    cases before with
    | closed => simp [read]
    | opened bytes interrupted => cases bytes <;> cases interrupted <;> simp [read]
  | write | signalInterrupt | close =>
    rw [call?, Option.some.injEq, Prod.mk.injEq] at h
    simp [← h.1]

/-- While the queue stays open, a signal leaves an interrupt, and only its report takes it away. -/
theorem call?_isInterrupted_iff (h : before.call? c = some (reply, after))
    (ha : after.isClosed = false) :
    after.isInterrupted = true ↔
      c = .signalInterrupt ∨
        before.isInterrupted = true ∧ reply ≠ .taken (.error .interrupted) := by
  cases before with
  | closed =>
    rw [call?_closed h] at ha
    contradiction
  | opened bytes interrupted =>
    rw [ne_eq, call?_interruption_iff h]
    cases c with
    | read patience n =>
      obtain ⟨-, rfl⟩ := call?_read_eq_some h
      cases bytes <;> cases interrupted <;> simp [read, isInterrupted]
    | write | signalInterrupt | close =>
      rw [call?, Option.some.injEq, Prod.mk.injEq] at h
      obtain ⟨-, rfl⟩ := h
      simp_all [write, signalInterrupt, close, isInterrupted, isClosed]

/-- A read that reports no interrupt takes none away. -/
theorem isInterrupted_of_read {patience : Patience} {n : Nat}
    (h : before.call? (.read patience n) = some (reply, after))
    (hr : reply ≠ .taken (.error .interrupted)) : after.isInterrupted = before.isInterrupted := by
  obtain ⟨rfl, rfl⟩ := call?_read_eq_some h
  cases before with
  | closed => rfl
  | opened bytes interrupted =>
    rcases read_opened n bytes interrupted with ha | ⟨ha, -⟩
    · rw [ha]
      rfl
    · exact absurd (by rw [ha]) hr

/-- What a call reports of an interrupt and what it leaves is covered by what it finds and by the
signal that it is. -/
theorem call?_balance (h : before.call? c = some (reply, after)) :
    let e : Event := ⟨c, reply, before, after⟩
    e.isInterruption.toNat + after.isInterrupted.toNat ≤
      e.isSignal.toNat + before.isInterrupted.toNat := by
  intro e
  by_cases hr : reply = .taken (.error .interrupted)
  · obtain ⟨⟨patience, n, rfl⟩, rfl⟩ := (call?_interruption_iff h).mp hr
    obtain ⟨rfl, rfl⟩ := call?_read_eq_some h
    simp [e, Event.isInterruption, Event.isSignal, read, isInterrupted]
  · have he : e.isInterruption = false := by
      rw [← Bool.not_eq_true, Event.isInterruption_iff]
      exact hr
    rw [he]
    cases c with
    | read patience n => simp [isInterrupted_of_read h hr]
    | write | signalInterrupt | close =>
      rw [call?, Option.some.injEq, Prod.mk.injEq] at h
      obtain ⟨-, rfl⟩ := h
      cases before <;> simp [e, Event.isSignal, write, signalInterrupt, close, isInterrupted]

end Step

theorem Run.isInterrupted_iff {q : ByteQueue} {events : List Event} (h : Run .empty events q)
    (hq : q.isClosed = false) : q.isInterrupted = true ↔ Signalled events := by
  induction events using List.reverseRecOn generalizing q with
  | nil =>
    cases h
    simp [empty, isInterrupted, not_signalled_nil]
  | append_singleton events e ih =>
    obtain ⟨hold, hstep, hlast⟩ := h.at_event
    cases hlast
    have hb : e.before.isClosed = false := by
      cases hb : e.before with
      | opened bytes interrupted => rfl
      | closed =>
        rw [hb] at hstep
        rw [call?_closed hstep] at hq
        contradiction
    rw [call?_isInterrupted_iff hstep hq, ih hold hb, signalled_concat]

theorem Run.interruptions_le {q last : ByteQueue} {events : List Event} (h : Run q events last) :
    interruptions events + last.isInterrupted.toNat ≤ signals events + q.isInterrupted.toNat := by
  induction h with
  | nil q => simp [interruptions, signals]
  | @cons q q' last c reply events step rest ih =>
    have hb := call?_balance step
    dsimp only at hb
    rw [interruptions_cons, signals_cons]
    omega

section New

variable {older newer : List Event} {e : Event} {q : ByteQueue}

theorem Run.interruption_iff (h : Run .empty (older ++ e :: newer) q)
    (hc : ∃ patience n, e.call = .read patience n) (hopen : e.before.isClosed = false) :
    e.reply = .taken (.error .interrupted) ↔ e.before.bytes = [] ∧ Signalled older := by
  obtain ⟨hold, hstep, -⟩ := h.at_event
  rw [call?_interruption_iff hstep, ← hold.isInterrupted_iff hopen]
  cases hb : e.before with
  | closed => simp [hb, isClosed] at hopen
  | opened bytes interrupted => simp [hc, ByteQueue.bytes, isInterrupted]

/-- Without another signal at most the one interrupt that is pending is reported. -/
theorem Run.interruptions_le_one {q last : ByteQueue} {events : List Event}
    (h : Run q events last) (hn : ∀ e ∈ events, e.call ≠ .signalInterrupt) :
    interruptions events ≤ 1 := by
  have hsignals : signals events = 0 := by
    rw [signals, List.countP_eq_zero]
    intro e he
    simpa [Event.isSignal] using hn e he
  have hle := h.interruptions_le
  have hone := Bool.toNat_le q.isInterrupted
  omega

/-- A signal is reported once a read finds the open queue empty. -/
theorem Run.interruptions_pos (h : Run .empty (older ++ newer) q) (hs : Signalled older)
    (he : ∃ e ∈ newer, (∃ patience n, e.call = .read patience n) ∧ e.before.isClosed = false ∧
      e.before.bytes = []) : 0 < interruptions newer := by
  obtain ⟨e, he, hc, hopen, hempty⟩ := he
  rw [interruptions, List.countP_pos_iff]
  by_contra hnone
  have hquiet : ∀ e' ∈ newer, e'.reply ≠ .taken (.error .interrupted) :=
    fun e' he' hr => hnone ⟨e', he', Event.isInterruption_iff.mpr hr⟩
  obtain ⟨between, rest, rfl⟩ := List.append_of_mem he
  rw [← List.append_assoc] at h
  obtain ⟨hbetween, -⟩ := List.forall_mem_append.mp hquiet
  exact hquiet e he ((h.interruption_iff hc hopen).mpr ⟨hempty, hs.append hbetween⟩)

theorem Run.no_interruption_of_closed {last : ByteQueue} {events : List Event}
    (h : Run .closed events last) : ∀ e ∈ events, e.reply ≠ .taken (.error .interrupted) := by
  intro e he hr
  obtain ⟨-, -, hrefused⟩ := h.refused rfl
  obtain ⟨-, hb⟩ := (call?_interruption_iff (h.call?_of_mem he)).mp hr
  rw [(hrefused e he).before_eq] at hb
  contradiction

end New

/-- Over every run of a new queue: a read at the open queue reports an interrupt exactly when it
finds no byte and there has been a signal since the last report; signals without another after them
are reported at most once, and once when a read finds the open queue empty; there are no more
reports than signals; a read that gets bytes, or wants none of those there are, keeps a pending
interrupt; and behind a close no interrupt is reported. -/
theorem interrupts_accounted {events : List Event} {q : ByteQueue} (h : Run .empty events q) :
    (∀ older e newer, events = older ++ e :: newer →
      ∀ patience n, e.call = .read patience n → e.before.isClosed = false →
        (e.reply = .taken (.error .interrupted) ↔ e.before.bytes = [] ∧ Signalled older)) ∧
    (∀ older newer, events = older ++ newer → (∀ e ∈ newer, e.call ≠ .signalInterrupt) →
      interruptions newer ≤ 1 ∧
      (Signalled older →
        (∃ e ∈ newer, (∃ patience n, e.call = .read patience n) ∧ e.before.isClosed = false ∧
          e.before.bytes = []) →
        interruptions newer = 1)) ∧
    interruptions events ≤ signals events ∧
    (∀ e ∈ events, ∀ patience n, e.call = .read patience n →
      ((∃ b taken, e.reply = .taken (.ok (b :: taken))) ∨ (n = 0 ∧ e.before.bytes ≠ [])) →
      e.after.isInterrupted = e.before.isInterrupted) ∧
    (∀ older closing newer, events = older ++ closing :: newer → closing.call = .close →
      ∀ e ∈ newer, e.reply ≠ .taken (.error .interrupted)) := by
  refine ⟨?_, ?_, ?_, ?_, ?_⟩
  · rintro older e newer rfl patience n hc hopen
    exact h.interruption_iff ⟨patience, n, hc⟩ hopen
  · rintro older newer rfl hn
    obtain ⟨middle, -, hnew⟩ := h.split
    have hle := hnew.interruptions_le_one hn
    refine ⟨hle, fun hs he => ?_⟩
    have hpos := h.interruptions_pos hs he
    omega
  · have hle := h.interruptions_le
    simp only [empty, isInterrupted, Bool.toNat_false, Nat.add_zero] at hle
    omega
  · intro e he patience n hc hkeep
    have hstep := h.call?_of_mem he
    rw [hc] at hstep
    apply isInterrupted_of_read hstep
    intro hr
    rcases hkeep with ⟨b, taken, ha⟩ | ⟨-, hne⟩
    · rw [hr] at ha
      simp at ha
    · obtain ⟨-, hb⟩ := (call?_interruption_iff hstep).mp hr
      rw [hb] at hne
      exact hne rfl
  · rintro older closing newer rfl hc
    obtain ⟨-, hstep, hnew⟩ := h.at_event
    rw [hc, call?, Option.some.injEq, Prod.mk.injEq] at hstep
    rw [← hstep.2] at hnew
    exact Run.no_interruption_of_closed hnew

/-- Two signals before a byte and an empty read of it are one interrupt, which the close behind a
third signal takes away. -/
theorem interrupts_accounted_collapsed :
    ∃ events last, Run .empty events last ∧
      events.map Event.call = [.signalInterrupt, .write [7], .signalInterrupt, .read .none 0,
        .read .unlimited 4, .read .limited 4, .read .none 4, .signalInterrupt, .close,
        .signalInterrupt, .read .none 4] ∧
      interruptions events = 1 ∧ interruptions events ≤ signals events ∧
      ∀ e ∈ events.drop 9, e.reply ≠ .taken (.error .interrupted) := by
  have h : Run .empty _ .closed :=
    .cons (c := .signalInterrupt) rfl <| .cons (c := .write [7]) rfl <|
    .cons (c := .signalInterrupt) rfl <| .cons (c := .read .none 0) rfl <|
    .cons (c := .read .unlimited 4) rfl <| .cons (c := .read .limited 4) rfl <|
    .cons (c := .read .none 4) rfl <| .cons (c := .signalInterrupt) rfl <|
    .cons (c := .close) rfl <| .cons (c := .signalInterrupt) rfl <|
    .cons (c := .read .none 4) rfl <| .nil _
  have hall := interrupts_accounted h
  refine ⟨_, _, h, rfl, rfl, hall.2.2.1, ?_⟩
  exact hall.2.2.2.2 (List.take 8 _) _ _ (by exact (List.take_append_drop 8 _).symm) rfl

end TerminalShell.Channel.ByteQueue
