import TerminalShell.Proofs.Channel.QueueRun

/-!
What goes into a queue comes out of it: up to the first close the bytes received and those still
waiting are the bytes written, in order, and what waits when a queue is closed is all that is lost.
-/
namespace TerminalShell.Channel.ByteQueue

namespace Event

def offered (e : Event) : List UInt8 :=
  match e.call with
  | .write bytes => bytes
  | _ => []

def received (e : Event) : List UInt8 :=
  match e.reply with
  | .taken (.ok bytes) => bytes
  | _ => []

/-- A writer is told the length of all it wrote, and a reader gets as many of the first bytes as
it asks for and there are, or learns of an interrupt and gets none. -/
structure Served (e : Event) : Prop where
  write : ∀ bytes, e.call = .write bytes → e.reply = .wrote (.ok bytes.length)
  read : ∀ patience n, e.call = .read patience n →
    (∃ taken, e.reply = .taken (.ok taken) ∧ taken.length = min n e.before.bytes.length ∧
      taken ++ e.after.bytes = e.before.bytes) ∨
    (e.reply = .taken (.error .interrupted) ∧ e.after.bytes = e.before.bytes)

/-- Readers and writers fail, and nothing changes. -/
structure Refused (e : Event) : Prop where
  write : ∀ bytes, e.call = .write bytes → e.reply = .wrote (.error .closed)
  read : ∀ patience n, e.call = .read patience n → e.reply = .taken (.error .closed)
  before_eq : e.before = .closed
  after_eq : e.after = .closed

end Event

def offered (events : List Event) : List UInt8 := events.flatMap Event.offered

def received (events : List Event) : List UInt8 := events.flatMap Event.received

@[simp] theorem offered_cons (e : Event) (events : List Event) :
    offered (e :: events) = e.offered ++ offered events := rfl

@[simp] theorem received_cons (e : Event) (events : List Event) :
    received (e :: events) = e.received ++ received events := rfl

@[simp] theorem received_append (first second : List Event) :
    received (first ++ second) = received first ++ received second := List.flatMap_append

theorem read_opened (n : Nat) (bytes : List UInt8) (interrupted : Bool) :
    (opened bytes interrupted).read n = (.ok (bytes.take n), .opened (bytes.drop n) interrupted) ∨
      (opened bytes interrupted).read n = (.error .interrupted, .opened [] false) ∧ bytes = [] := by
  by_cases h : (bytes.isEmpty && interrupted) = true
  · right
    simp only [Bool.and_eq_true, List.isEmpty_iff] at h
    simp [read, h]
  · left
    simp [read, h]

theorem isClosed_iff (q : ByteQueue) : q.isClosed = true ↔ q = .closed := by
  cases q <;> simp [isClosed]

@[simp] theorem isClosed_read (n : Nat) (q : ByteQueue) : (q.read n).2.isClosed = q.isClosed := by
  cases q with
  | closed => rfl
  | opened bytes interrupted =>
    rcases read_opened n bytes interrupted with h | ⟨h, -⟩ <;> rw [h] <;> rfl

@[simp] theorem isClosed_write (bytes : List UInt8) (q : ByteQueue) :
    (q.write bytes).2.isClosed = q.isClosed := by
  cases q <;> rfl

@[simp] theorem isClosed_signalInterrupt (q : ByteQueue) :
    q.signalInterrupt.isClosed = q.isClosed := by
  cases q <;> rfl

theorem call?_opened {c : Call} {bytes : List UInt8} {interrupted : Bool} {reply : Reply}
    {q : ByteQueue} (h : (opened bytes interrupted).call? c = some (reply, q))
    (hc : c ≠ .close) :
    let e : Event := ⟨c, reply, opened bytes interrupted, q⟩
    q.isClosed = false ∧ e.received ++ q.bytes = bytes ++ e.offered ∧ e.Served := by
  cases c with
  | write new =>
    simp only [call?, write, Option.some.injEq, Prod.mk.injEq] at h
    obtain ⟨rfl, rfl⟩ := h
    refine ⟨rfl, rfl, ⟨?_, by simp⟩⟩
    intro written hw
    rw [Call.write.injEq] at hw
    rw [hw]
  | read patience n =>
    obtain ⟨rfl, rfl⟩ := call?_read_eq_some h
    rcases read_opened n bytes interrupted with hr | ⟨hr, rfl⟩
    · rw [hr]
      refine ⟨rfl, by simp [Event.received, Event.offered, ByteQueue.bytes], ⟨by simp, ?_⟩⟩
      rintro _ m ⟨rfl, rfl⟩
      exact .inl ⟨bytes.take n, rfl, List.length_take, List.take_append_drop n bytes⟩
    · rw [hr]
      exact ⟨rfl, rfl, ⟨by simp, fun _ _ _ => .inr ⟨rfl, rfl⟩⟩⟩
  | signalInterrupt =>
    simp only [call?, signalInterrupt, Option.some.injEq, Prod.mk.injEq] at h
    obtain ⟨rfl, rfl⟩ := h
    exact ⟨rfl, by simp [Event.received, Event.offered, ByteQueue.bytes], ⟨by simp, by simp⟩⟩
  | close => exact absurd rfl hc

/-- A run without a close loses and reorders nothing. -/
theorem Run.conserves {q last : ByteQueue} {events : List Event} (h : Run q events last)
    (hq : q.isClosed = false) (hc : ∀ e ∈ events, e.call ≠ .close) :
    last.isClosed = false ∧ received events ++ last.bytes = q.bytes ++ offered events ∧
      ∀ e ∈ events, e.Served := by
  induction h with
  | nil q => exact ⟨hq, by simp [received, offered], by simp⟩
  | @cons q q' last c reply events step rest ih =>
    cases q with
    | closed => simp [isClosed] at hq
    | opened bytes interrupted =>
      obtain ⟨hfirst, hrest⟩ := List.forall_mem_cons.mp hc
      obtain ⟨ho, hb, hs⟩ := call?_opened step hfirst
      obtain ⟨hl, hr, ha⟩ := ih ho hrest
      refine ⟨hl, ?_, List.forall_mem_cons.mpr ⟨hs, ha⟩⟩
      rw [received_cons, offered_cons, List.append_assoc, hr, ← List.append_assoc, hb,
        List.append_assoc]
      rfl

/-- A closed queue stays as it is, whatever is called. -/
theorem Run.refused {q last : ByteQueue} {events : List Event} (h : Run q events last)
    (hq : q = .closed) :
    last = .closed ∧ received events = [] ∧ ∀ e ∈ events, e.Refused := by
  induction h with
  | nil q => exact ⟨hq, rfl, by simp⟩
  | @cons q q' last c reply events step rest ih =>
    subst hq
    have hs : Event.received ⟨c, reply, closed, q'⟩ = [] ∧ q' = .closed ∧
        Event.Refused ⟨c, reply, closed, q'⟩ := by
      cases c with
      | read patience n =>
        obtain ⟨rfl, rfl⟩ := call?_read_eq_some step
        exact ⟨rfl, rfl, ⟨by simp, fun _ _ _ => rfl, rfl, rfl⟩⟩
      | write | signalInterrupt | close =>
        simp only [call?, Option.some.injEq, Prod.mk.injEq] at step
        obtain ⟨rfl, rfl⟩ := step
        exact ⟨rfl, rfl, ⟨by simp [write], by simp, rfl, rfl⟩⟩
    obtain ⟨hl, hr, ha⟩ := ih hs.2.1
    exact ⟨hl, by rw [received_cons, hs.1, hr, List.append_nil],
      List.forall_mem_cons.mpr ⟨hs.2.2, ha⟩⟩

/-- Over every run of a new queue: before any close the bytes received and those that wait are the
bytes offered, in order, and every reader and writer is served; behind the first close only what
waited at it is lost, and the queue is empty, quiet and closed for ever. Any further call returns,
unless a patient reader finds an open queue without bytes and interrupt. -/
theorem run_conserves_bytes {events : List Event} {q : ByteQueue} (h : Run .empty events q) :
    ((∀ e ∈ events, e.call ≠ .close) →
      received events ++ q.bytes = offered events ∧ ∀ e ∈ events, e.Served) ∧
    (∀ before closing after, events = before ++ closing :: after →
      (∀ e ∈ before, e.call ≠ .close) → closing.call = .close →
      received events ++ closing.before.bytes = offered before ∧
      received events <+: offered before ∧
      (∀ e ∈ before, e.Served) ∧
      (∀ e ∈ after, e.Refused) ∧
      q.bytes = [] ∧ q.isInterrupted = false ∧ q.isClosed = true) ∧
    (∀ c, q.call? c = none ↔ q = .opened [] false ∧ ∃ n, n ≠ 0 ∧ c = .read .unlimited n) := by
  refine ⟨?_, ?_, fun c => call?_eq_none_iff⟩
  · intro hc
    obtain ⟨-, hr, hs⟩ := h.conserves rfl hc
    exact ⟨hr, hs⟩
  · rintro before closing after rfl hc hclose
    obtain ⟨middle, hbefore, hafter⟩ := h.split
    obtain ⟨-, hr, hs⟩ := hbefore.conserves rfl hc
    cases hafter with
    | @cons _ q' _ c reply _ step rest =>
      simp only at hclose
      subst hclose
      simp only [call?, close, Option.some.injEq, Prod.mk.injEq] at step
      obtain ⟨rfl, rfl⟩ := step
      obtain ⟨rfl, hn, ha⟩ := rest.refused rfl
      have hall : received (before ++ ⟨.close, .done, middle, closed⟩ :: after) =
          received before := by
        rw [received_append, received_cons, hn]
        simp [Event.received]
      rw [hall]
      exact ⟨hr, ⟨middle.bytes, hr⟩, hs, ha, rfl, rfl, rfl⟩

/-- An interrupt between partial reads, a patient reader, and a close while a byte waits. -/
theorem run_conserves_bytes_at_close :
    ∃ events last, Run .empty events last ∧
      events.map Event.call = [.write [1, 2], .read .none 1, .signalInterrupt, .read .limited 5,
        .read .unlimited 5, .write [3, 4], .read .unlimited 1, .close, .read .unlimited 1,
        .write [5]] ∧
      received events = [1, 2, 3] ∧ received events <+: [1, 2, 3, 4] ∧ last.isClosed = true := by
  have h : Run .empty _ .closed :=
    .cons (c := .write [1, 2]) rfl <| .cons (c := .read .none 1) rfl <|
    .cons (c := .signalInterrupt) rfl <| .cons (c := .read .limited 5) rfl <|
    .cons (c := .read .unlimited 5) rfl <| .cons (c := .write [3, 4]) rfl <|
    .cons (c := .read .unlimited 1) rfl <| .cons (c := .close) rfl <|
    .cons (c := .read .unlimited 1) rfl <| .cons (c := .write [5]) rfl <| .nil _
  have hc := (run_conserves_bytes h).2.1 (List.take 7 _) _ _
    (by exact (List.take_append_drop 7 _).symm) (by simp) rfl
  exact ⟨_, _, h, rfl, rfl, hc.2.1, hc.2.2.2.2.2.2⟩

end TerminalShell.Channel.ByteQueue
