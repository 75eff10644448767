import TerminalShell.Channel.Terminal
import TerminalShell.Proofs.Channel.QueueConservation

/-!
The two directions of a terminal. Whatever is done at its ends, and in whatever order, each
direction answers as if the other were not there. Only a close is common to both: it is for ever,
and everything behind it is refused. An interrupt never goes towards the screen.
-/
namespace TerminalShell.Channel

namespace ByteQueue

theorem readTimeout_eq_read (n : Nat) (q : ByteQueue) : q.readTimeout n = q.read n :=
  @readWith?_eq_some n q .limited _ rfl

theorem read_of_not_isInterrupted {q : ByteQueue} (h : q.isInterrupted = false) (n : Nat) :
    (q.read n).2.isInterrupted = false ∧ (q.read n).1 ≠ .error .interrupted := by
  cases q with
  | closed => simp [read, isInterrupted]
  | opened bytes interrupted =>
    obtain rfl : interrupted = false := h
    simp [read, isInterrupted]

/-- A reader that waits gets what a plain read gets, unless it has to wait. -/
theorem awaited_read_cases (n : Nat) (q : ByteQueue) :
    awaited.read n q = (.waiting, q) ∧ q = .opened [] false ∨
      awaited.read n q = (.ofResult (q.read n).1, (q.read n).2) := by
  by_cases h : n ≠ 0 ∧ q = .opened [] false
  · left
    simp [awaited, readBlocking?, h]
  · right
    simp only [awaited, readBlocking?, h, if_false]

end ByteQueue

namespace Terminal

/-- What the screen can do. -/
inductive ScreenCall where
  /-- Waits for output, as long as it takes or until its patience ends. -/
  | read (limited : Bool) (n : Nat)
  | write (bytes : List UInt8)
  | interrupt
  | close
  deriving DecidableEq, Repr

/-- What the command can do. -/
inductive CommandCall where
  | read (waits : Bool) (n : Nat)
  | write (bytes : List UInt8)
  | close
  deriving DecidableEq, Repr

/-- What can be done with the command's end as a stream whose reads wait. -/
inductive StreamCall where
  | read (n : Nat)
  | write (bytes : List UInt8)
  | close
  deriving DecidableEq, Repr

def StreamCall.toCommandCall : StreamCall → CommandCall
  | .read n => .read true n
  | .write bytes => .write bytes
  | .close => .close

/-- A call at one of the ends of a terminal. -/
inductive Operation where
  | screen (c : ScreenCall)
  | command (c : CommandCall)
  | stream (c : StreamCall)
  deriving DecidableEq, Repr

inductive Reply where
  | read (reading : Reading)
  | wrote (result : Except ChannelError Nat)
  | signalled (result : Except ChannelError Unit)
  | done
  deriving Repr

/-- The replies of a closed terminal. -/
def Reply.IsRefusal (reply : Reply) : Prop :=
  reply = .read (.failed .closed) ∨ reply = .wrote (.error .closed) ∨
    reply = .signalled (.error .closed)

def callScreen (t : Terminal) : ScreenCall → Reply × Terminal
  | .read false n => (.read (awaitedOutput.read n t).1, (awaitedOutput.read n t).2)
  | .read true n =>
    (.read (.ofResult (t.output.readTimeout n).1), { t with output := (t.output.readTimeout n).2 })
  | .write bytes => (.wrote (t.typeBytes bytes).1, (t.typeBytes bytes).2)
  | .interrupt => (.signalled t.interrupt.1, t.interrupt.2)
  | .close => (.done, t.close)

def callCommand (t : Terminal) : CommandCall → Reply × Terminal
  | .read false n => (.read (polledInput.read n t).1, (polledInput.read n t).2)
  | .read true n => (.read (awaitedInput.read n t).1, (awaitedInput.read n t).2)
  | .write bytes => (.wrote (t.print bytes).1, (t.print bytes).2)
  | .close => (.done, t.close)

/-- The reply to an operation, and the terminal behind it. A read that has to wait changes
nothing. -/
def perform (t : Terminal) : Operation → Reply × Terminal
  | .screen c => t.callScreen c
  | .command c => t.callCommand c
  | .stream c => t.callCommand c.toCommandCall

structure Event where
  operation : Operation
  reply : Reply
  deriving Repr

/-- Operations in a row with their replies. -/
def history (t : Terminal) : List Operation → List Event
  | [] => []
  | op :: ops => ⟨op, (t.perform op).1⟩ :: history (t.perform op).2 ops

/-- What operations in a row leave. -/
def after (t : Terminal) (ops : List Operation) : Terminal :=
  ops.foldl (fun t op => (t.perform op).2) t

inductive Direction where
  | input
  | output
  deriving DecidableEq, Repr

def queue (t : Terminal) : Direction → ByteQueue
  | .input => t.input
  | .output => t.output

def setQueue (t : Terminal) (q : ByteQueue) : Direction → Terminal
  | .input => { t with input := q }
  | .output => { t with output := q }

namespace Operation

/-- The direction that an operation belongs to; a close belongs to both. -/
def direction? : Operation → Option Direction
  | .screen (.read _ _) | .command (.write _) | .stream (.write _) => some .output
  | .screen (.write _) | .screen .interrupt | .command (.read _ _) | .stream (.read _) =>
    some .input
  | .screen .close | .command .close | .stream .close => none

def concerns (d : Direction) (op : Operation) : Bool :=
  op.direction? == some d || op.direction? == none

/-- What an operation does to the queue of its direction when there is no other. -/
def effect (interruptByte : UInt8) (q : ByteQueue) : Operation → Reply × ByteQueue
  | .screen (.read false n) | .command (.read true n) | .stream (.read n) =>
    (.read (ByteQueue.awaited.read n q).1, (ByteQueue.awaited.read n q).2)
  | .screen (.read true n) | .command (.read false n) =>
    (.read (.ofResult (q.read n).1), (q.read n).2)
  | .screen (.write bytes) =>
    if q.isClosed then (.wrote (.error .closed), q)
    else (.wrote (.ok bytes.length), (emissions interruptByte bytes).foldl Emission.apply q)
  | .screen .interrupt =>
    if q.isClosed then (.signalled (.error .closed), q)
    else (.signalled (.ok ()), q.signalInterrupt)
  | .command (.write bytes) | .stream (.write bytes) =>
    (.wrote (q.write bytes).1, (q.write bytes).2)
  | .screen .close | .command .close | .stream .close => (.done, q.close)

end Operation

variable (t : Terminal) (op : Operation) (ops : List Operation)

/-- An operation has its effect on the queue of its direction and on nothing else; a close closes
both. -/
theorem perform_eq :
    t.perform op =
      match op.direction? with
      | some d =>
        ((op.effect t.interruptByte (t.queue d)).1,
          t.setQueue (op.effect t.interruptByte (t.queue d)).2 d)
      | none => (.done, t.close) := by
  rcases op with (⟨_ | _, n⟩ | bytes | _ | _) | (⟨_ | _, n⟩ | bytes | _) | (n | bytes | _)
  case screen.read.true =>
    simp [perform, callScreen, Operation.direction?, Operation.effect, queue, setQueue,
      ByteQueue.readTimeout_eq_read]
  case screen.write =>
    by_cases h : t.input.isClosed = true <;>
      simp [perform, callScreen, typeBytes, Operation.direction?, Operation.effect, queue, setQueue,
        h]
  case screen.interrupt =>
    by_cases h : t.input.isClosed = true <;>
      simp [perform, callScreen, interrupt, Operation.direction?, Operation.effect, queue, setQueue,
        h]
  all_goals rfl

variable {t op} {d : Direction}

theorem perform_of_direction? (h : op.direction? = some d) :
    t.perform op =
      ((op.effect t.interruptByte (t.queue d)).1,
        t.setQueue (op.effect t.interruptByte (t.queue d)).2 d) := by
  rw [perform_eq, h]

theorem perform_of_close (h : op.direction? = none) : t.perform op = (.done, t.close) := by
  rw [perform_eq, h]

@[simp] theorem queue_setQueue_self (q : ByteQueue) : (t.setQueue q d).queue d = q := by
  cases d <;> rfl

theorem queue_setQueue_of_ne {e : Direction} (h : e ≠ d) (q : ByteQueue) :
    (t.setQueue q d).queue e = t.queue e := by
  cases d <;> cases e <;> first | rfl | exact absurd rfl h

@[simp] theorem queue_close : t.close.queue d = .closed := by
  cases d <;> rfl

@[simp] theorem interruptByte_perform : (t.perform op).2.interruptByte = t.interruptByte := by
  rw [perform_eq]
  split
  next d _ => cases d <;> rfl
  next => rfl

/-- Two terminals that are the same in one direction. -/
structure Agree (d : Direction) (t u : Terminal) : Prop where
  interruptByte_eq : t.interruptByte = u.interruptByte
  queue_eq : t.queue d = u.queue d

/-- What concerns a direction is answered there alone. -/
theorem Agree.perform {u : Terminal} (h : Agree d t u) (hc : op.concerns d = true) :
    (t.perform op).1 = (u.perform op).1 ∧ Agree d (t.perform op).2 (u.perform op).2 := by
  have hb : (t.perform op).2.interruptByte = (u.perform op).2.interruptByte := by
    rw [interruptByte_perform, interruptByte_perform, h.interruptByte_eq]
  simp only [Operation.concerns, Bool.or_eq_true, beq_iff_eq] at hc
  rcases hc with hd | hn
  · refine ⟨?_, hb, ?_⟩
    · rw [perform_of_direction? hd, perform_of_direction? hd, h.interruptByte_eq, h.queue_eq]
    · rw [perform_of_direction? hd, perform_of_direction? hd, h.interruptByte_eq, h.queue_eq,
        queue_setQueue_self, queue_setQueue_self]
  · refine ⟨?_, hb, ?_⟩
    · rw [perform_of_close hn, perform_of_close hn]
    · rw [perform_of_close hn, perform_of_close hn, queue_close, queue_close]

/-- What does not concern a direction leaves it as it is. -/
theorem agree_perform (hc : op.concerns d = false) : Agree d (t.perform op).2 t := by
  refine ⟨interruptByte_perform, ?_⟩
  simp only [Operation.concerns, Bool.or_eq_false_iff, beq_eq_false_iff_ne] at hc
  obtain ⟨e, he⟩ := Option.ne_none_iff_exists'.mp hc.2
  have hde : d ≠ e := by
    rintro rfl
    exact hc.1 he
  rw [perform_of_direction? he, queue_setQueue_of_ne hde]

/-- To leave out what does not concern a direction changes nothing there. -/
theorem Agree.filter {u : Terminal} (h : Agree d t u) :
    (t.history ops).filter (·.operation.concerns d) =
        u.history (ops.filter (Operation.concerns d)) ∧
      Agree d (t.after ops) (u.after (ops.filter (Operation.concerns d))) := by
  induction ops generalizing t u with
  | nil => exact ⟨rfl, h⟩
  | cons op ops ih =>
    cases hc : op.concerns d with
    | true =>
      obtain ⟨hreply, hafter⟩ := h.perform hc
      obtain ⟨hrest, hlast⟩ := ih hafter
      simp only [history, List.filter_cons, hc, if_true, hreply, hrest]
      exact ⟨trivial, hlast⟩
    | false =>
      have hstep := agree_perform (t := t) hc
      obtain ⟨hrest, hlast⟩ := ih ⟨hstep.1.trans h.1, hstep.2.trans h.2⟩
      simp only [history, List.filter_cons, hc, Bool.false_eq_true, if_false, hrest]
      exact ⟨trivial, hlast⟩

section Effect

variable {q : ByteQueue} (interruptByte : UInt8)

theorem isClosed_foldl_emissions (es : List Emission) (q : ByteQueue) :
    (es.foldl Emission.apply q).isClosed = q.isClosed := by
  induction es generalizing q with
  | nil => rfl
  | cons e es ih =>
    rw [List.foldl_cons, ih]
    cases e <;> simp [Emission.apply]

/-- Only a close closes. -/
theorem Operation.isClosed_effect (h : op.direction? = some d) :
    (op.effect interruptByte q).2.isClosed = q.isClosed := by
  have hawaited (n : Nat) : (ByteQueue.awaited.read n q).2.isClosed = q.isClosed := by
    rcases q.awaited_read_cases n with ⟨hw, -⟩ | hr
    · rw [hw]
    · rw [hr, ByteQueue.isClosed_read]
  rcases op with (⟨_ | _, n⟩ | bytes | _ | _) | (⟨_ | _, n⟩ | bytes | _) | (n | bytes | _)
  case screen.close | command.close | stream.close => contradiction
  case screen.write =>
    by_cases hq : q.isClosed = true <;> simp [effect, hq, isClosed_foldl_emissions]
  case screen.interrupt => by_cases hq : q.isClosed = true <;> simp [effect, hq]
  all_goals simp [effect, hawaited]

theorem Operation.effect_closed (h : op.direction? = some d) :
    (op.effect interruptByte .closed).1.IsRefusal := by
  have hawaited (n : Nat) : (ByteQueue.awaited.read n .closed).1 = .failed .closed := by
    simp [ByteQueue.awaited, ByteQueue.readBlocking?, ByteQueue.read, Reading.ofResult]
  rcases op with (⟨_ | _, n⟩ | bytes | _ | _) | (⟨_ | _, n⟩ | bytes | _) | (n | bytes | _)
  case screen.close | command.close | stream.close => contradiction
  all_goals
    simp [effect, Reply.IsRefusal, hawaited, ByteQueue.read, ByteQueue.write, ByteQueue.isClosed,
      Reading.ofResult]

/-- Nothing that is done towards the screen leaves or reports an interrupt. -/
theorem Operation.effect_output (h : op.direction? = some .output)
    (hq : q.isInterrupted = false) :
    (op.effect interruptByte q).2.isInterrupted = false ∧
      (op.effect interruptByte q).1 ≠ .read (.failed .interrupted) := by
  have hread (n : Nat) : (q.read n).2.isInterrupted = false ∧
      Reading.ofResult (q.read n).1 ≠ .failed .interrupted := by
    obtain ⟨hquiet, hne⟩ := ByteQueue.read_of_not_isInterrupted hq n
    refine ⟨hquiet, ?_⟩
    cases hr : (q.read n).1 with
    | ok taken => simp [Reading.ofResult]
    | error e =>
      rw [hr] at hne
      simpa [Reading.ofResult] using hne
  have hwrite (bytes : List UInt8) : (q.write bytes).2.isInterrupted = false := by
    cases q with
    | closed => rfl
    | opened old interrupted => exact hq
  rcases op with (⟨_ | _, n⟩ | bytes | _ | _) | (⟨_ | _, n⟩ | bytes | _) | (n | bytes | _)
  case screen.read.false =>
    rcases q.awaited_read_cases n with ⟨hw, -⟩ | hr
    · simp [effect, hw, hq]
    · simpa [effect, hr] using hread n
  case screen.read.true => simpa [effect] using hread n
  case command.write | stream.write => simp [effect, hwrite]
  all_goals simp [direction?] at h

end Effect

/-- Both directions are open or both are closed, and nobody has interrupted the screen. -/
structure Joined (t : Terminal) : Prop where
  isClosed_eq : t.input.isClosed = t.output.isClosed
  output_quiet : t.output.isInterrupted = false

theorem Joined.perform (h : t.Joined) : (t.perform op).2.Joined := by
  cases hd : op.direction? with
  | none =>
    rw [perform_of_close hd]
    exact ⟨rfl, rfl⟩
  | some d =>
    rw [perform_of_direction? hd]
    cases d with
    | input => exact ⟨(Operation.isClosed_effect _ hd).trans h.isClosed_eq, h.output_quiet⟩
    | output =>
      exact ⟨h.isClosed_eq.trans (Operation.isClosed_effect _ hd).symm,
        (Operation.effect_output _ hd h.output_quiet).1⟩

theorem Joined.after (h : t.Joined) : (t.after ops).Joined := by
  induction ops generalizing t with
  | nil => exact h
  | cons op ops ih => exact ih h.perform

theorem Joined.screen_uninterrupted (h : t.Joined) {e : Event} (he : e ∈ t.history ops)
    (hd : e.operation.direction? = some .output) : e.reply ≠ .read (.failed .interrupted) := by
  induction ops generalizing t with
  | nil => contradiction
  | cons op ops ih =>
    rcases List.mem_cons.mp he with rfl | he
    · rw [perform_of_direction? hd]
      exact (Operation.effect_output _ hd h.output_quiet).2
    · exact ih h.perform he

/-- A terminal that is closed in both directions. -/
structure Shut (t : Terminal) : Prop where
  queue_eq : ∀ d, t.queue d = .closed

theorem Joined.shut (h : t.Joined) (hc : t.isClosed = true) : t.Shut := by
  have heq := h.isClosed_eq
  simp only [isClosed, heq, Bool.or_self] at hc
  rw [hc] at heq
  constructor
  rintro (_ | _)
  · exact (ByteQueue.isClosed_iff t.input).mp heq
  · exact (ByteQueue.isClosed_iff t.output).mp hc

theorem Shut.perform (h : t.Shut) :
    (t.perform op).2.Shut ∧ (op.direction? ≠ none → (t.perform op).1.IsRefusal) := by
  cases hd : op.direction? with
  | none =>
    rw [perform_of_close hd]
    exact ⟨⟨fun _ => queue_close⟩, fun hne => absurd rfl hne⟩
  | some d =>
    rw [perform_of_direction? hd, h.queue_eq]
    refine ⟨⟨fun e => ?_⟩, fun _ => Operation.effect_closed _ hd⟩
    by_cases he : e = d
    · subst he
      rw [queue_setQueue_self, ← ByteQueue.isClosed_iff, Operation.isClosed_effect _ hd]
      rfl
    · rw [queue_setQueue_of_ne he, h.queue_eq]

theorem Shut.after (h : t.Shut) : (t.after ops).Shut := by
  induction ops generalizing t with
  | nil => exact h
  | cons op ops ih => exact ih h.perform.1

theorem Shut.history (h : t.Shut) {e : Event} (he : e ∈ t.history ops)
    (hd : e.operation.direction? ≠ none) : e.reply.IsRefusal := by
  induction ops generalizing t with
  | nil => contradiction
  | cons op ops ih =>
    rcases List.mem_cons.mp he with rfl | he
    · exact h.perform.2 hd
    · exact ih h.perform.1 he

/-- Over any sequence of operations at the ends of a new terminal: what is answered and left in
either direction is the same when all that belongs to the other, closes apart, is left out; at any
time both directions are closed or neither is; once they are, every later read, write and interrupt
at every end is refused; and no reader of the output ever meets an interrupt. -/
theorem directions_independent (interruptByte : UInt8) (ops : List Operation) :
    let fresh : Terminal := { interruptByte }
    (∀ d, (fresh.history ops).filter (·.operation.concerns d) =
        fresh.history (ops.filter (Operation.concerns d)) ∧
      (fresh.after ops).queue d = (fresh.after (ops.filter (Operation.concerns d))).queue d) ∧
    (∀ older newer, ops = older ++ newer →
      let t := fresh.after older
      t.isClosed = t.input.isClosed ∧ t.isClosed = t.output.isClosed ∧
      t.output.isInterrupted = false ∧
      (t.isClosed = true → (t.after newer).isClosed = true ∧
        ∀ e ∈ t.history newer, e.operation.direction? ≠ none → e.reply.IsRefusal)) ∧
    ∀ e ∈ fresh.history ops, e.operation.direction? = some .output →
      e.reply ≠ .read (.failed .interrupted) := by
  intro fresh
  have hjoined : fresh.Joined := ⟨rfl, rfl⟩
  refine ⟨fun d => ?_, ?_, fun e he hd => hjoined.screen_uninterrupted ops he hd⟩
  · obtain ⟨hhistory, hafter⟩ := Agree.filter ops (⟨rfl, rfl⟩ : Agree d fresh fresh)
    exact ⟨hhistory, hafter.queue_eq⟩
  · rintro older newer -
    intro t
    have ht : t.Joined := hjoined.after older
    have heq := ht.isClosed_eq
    refine ⟨by simp [isClosed, heq], by simp [isClosed, heq], ht.output_quiet, fun hc => ?_⟩
    have hshut := ht.shut hc
    refine ⟨?_, fun e he hd => hshut.history newer he hd⟩
    have hlast := (hshut.after newer).queue_eq .input
    have hinput : (t.after newer).input = .closed := hlast
    simp [isClosed, hinput, ByteQueue.isClosed]

/-- An interrupt typed between two reads, output that nobody waits for, and a close. -/
example :
    let fresh : Terminal := {}
    let typed : List Operation := [.screen (.write [97, 3]), .command (.read false 4),
      .stream (.read 4), .command .close, .stream (.read 4)]
    let printed : List Operation := [.stream (.write [98]), .screen (.read true 4)]
    ((fresh.history (printed ++ typed)).filter (·.operation.concerns .input)).map Event.reply =
      [.wrote (.ok 2), .read (.delivered [97]), .read (.failed .interrupted), .done,
        .read (.failed .closed)] := by
  rfl

end Terminal

end TerminalShell.Channel
