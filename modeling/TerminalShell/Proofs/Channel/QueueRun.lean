import TerminalShell.Channel.ByteQueue

/-!
Runs of one queue. A run lists the calls made on it, each with its reply and with the queue before
and after it, in the order in which they take effect. A reader that waits takes nothing while it
does, so it stands where it looks last.
-/
namespace TerminalShell.Channel.ByteQueue

/-- How long a reader waits that finds nothing. -/
inductive Patience where
  | none
  | limited
  | unlimited
  deriving DecidableEq, Repr

inductive Call where
  | write (bytes : List UInt8)
  | read (patience : Patience) (n : Nat)
  | signalInterrupt
  | close
  deriving DecidableEq, Repr

inductive Reply where
  | wrote (result : Except ChannelError Nat)
  | taken (result : Except ChannelError (List UInt8))
  | done
  deriving Repr

/-- A read of up to `n` bytes, and nothing while it waits. -/
def readWith? (n : Nat) (q : ByteQueue) :
    Patience → Option (Except ChannelError (List UInt8) × ByteQueue)
  | .none => some (q.read n)
  | .limited => some (q.readTimeout n)
  | .unlimited => q.readBlocking? n

/-- However long a reader has waited, its answer is that of a plain read. -/
theorem readWith?_eq_some {n : Nat} {q : ByteQueue} {patience : Patience}
    {answer : Except ChannelError (List UInt8) × ByteQueue}
    (h : q.readWith? n patience = some answer) : answer = q.read n := by
  have hb {a} (ha : q.readBlocking? n = some a) : a = q.read n := by
    unfold readBlocking? at ha
    split at ha
    · contradiction
    · exact (Option.some.inj ha).symm
  cases patience with
  | none => exact (Option.some.inj h).symm
  | limited =>
    have hr := Option.some.inj h
    unfold readTimeout at hr
    cases ha : q.readBlocking? n with
    | none => simpa [ha] using hr.symm
    | some a => simpa [ha, hb ha] using hr.symm
  | unlimited => exact hb h

/-- The reply to a call and the queue behind it, and nothing while the call waits. -/
def call? (q : ByteQueue) : Call → Option (Reply × ByteQueue)
  | .write bytes => some (.wrote (q.write bytes).1, (q.write bytes).2)
  | .read patience n => (q.readWith? n patience).map fun answer => (.taken answer.1, answer.2)
  | .signalInterrupt => some (.done, q.signalInterrupt)
  | .close => some (.done, q.close)

theorem call?_read_eq_some {q q' : ByteQueue} {patience : Patience} {n : Nat} {reply : Reply}
    (h : q.call? (.read patience n) = some (reply, q')) :
    reply = .taken (q.read n).1 ∧ q' = (q.read n).2 := by
  obtain ⟨answer, ha, he⟩ := Option.map_eq_some_iff.mp h
  rw [readWith?_eq_some ha, Prod.mk.injEq] at he
  exact ⟨he.1.symm, he.2.symm⟩

/-- Only a patient reader of at least one byte may have to wait, at an open queue that holds neither
bytes nor an interrupt. -/
theorem call?_eq_none_iff {q : ByteQueue} {c : Call} :
    q.call? c = none ↔ q = .opened [] false ∧ ∃ n, n ≠ 0 ∧ c = .read .unlimited n := by
  cases c with
  | read patience n =>
    cases patience with
    | none | limited => simp [call?, readWith?]
    | unlimited =>
      rw [call?, Option.map_eq_none_iff, readWith?, readBlocking?]
      by_cases h : n ≠ 0 ∧ q = .opened [] false
      · simp [h]
      · rw [if_neg h]
        simp only [reduceCtorEq, false_iff]
        rintro ⟨hq, m, hm, hc⟩
        simp only [Call.read.injEq, true_and] at hc
        exact h ⟨hc ▸ hm, hq⟩
  | write | signalInterrupt | close => simp [call?]

/-- Nothing opens a closed queue. -/
theorem call?_closed {c : Call} {reply : Reply} {q : ByteQueue}
    (h : closed.call? c = some (reply, q)) : q = .closed := by
  cases c with
  | read patience n => exact (call?_read_eq_some h).2
  | write | signalInterrupt | close =>
    rw [call?, Option.some.injEq, Prod.mk.injEq] at h
    exact h.2.symm

structure Event where
  call : Call
  reply : Reply
  before : ByteQueue
  after : ByteQueue
  deriving Repr

inductive Run : ByteQueue → List Event → ByteQueue → Prop where
  | nil (q : ByteQueue) : Run q [] q
  | cons {q q' last : ByteQueue} {c : Call} {reply : Reply} {events : List Event}
      (step : q.call? c = some (reply, q')) (rest : Run q' events last) :
      Run q (⟨c, reply, q, q'⟩ :: events) last

theorem Run.split {q last : ByteQueue} {first second : List Event}
    (h : Run q (first ++ second) last) :
    ∃ middle, Run q first middle ∧ Run middle second last := by
  induction first generalizing q with
  | nil => exact ⟨q, .nil q, h⟩
  | cons e first ih =>
    cases h with
    | cons step rest =>
      obtain ⟨middle, hf, hs⟩ := ih rest
      exact ⟨middle, .cons step hf, hs⟩

theorem Run.append {q middle last : ByteQueue} {first second : List Event}
    (hf : Run q first middle) (hs : Run middle second last) : Run q (first ++ second) last := by
  induction hf with
  | nil q => exact hs
  | cons step _ ih => exact .cons step (ih hs)

/-- A run seen from one of its calls. -/
theorem Run.at_event {q last : ByteQueue} {older newer : List Event} {e : Event}
    (h : Run q (older ++ e :: newer) last) :
    Run q older e.before ∧ e.before.call? e.call = some (e.reply, e.after) ∧
      Run e.after newer last := by
  obtain ⟨middle, hold, hnew⟩ := h.split
  cases hnew with
  | cons step rest => exact ⟨hold, step, rest⟩

theorem Run.call?_of_mem {q last : ByteQueue} {events : List Event} {e : Event}
    (h : Run q events last) (he : e ∈ events) :
    e.before.call? e.call = some (e.reply, e.after) := by
  obtain ⟨older, newer, rfl⟩ := List.append_of_mem he
  exact h.at_event.2.1

end TerminalShell.Channel.ByteQueue
