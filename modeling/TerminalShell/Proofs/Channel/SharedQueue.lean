import Mathlib.Logic.Function.Basic
import Mathlib.Logic.Relation
import TerminalShell.Proofs.Channel.QueueConservation

/-!
A queue that threads share. What a thread does under the lock is one step, and a reader that finds
nothing falls asleep in that same step; a thread that has changed what readers find wakes them in a
later step, without the lock. No reader sleeps through what it waits for: while there is something
to report, a thread is still about to wake it.
-/
namespace TerminalShell.Channel

/-- Whether a call notifies the readers once it has given the lock back. A call that finds nothing
to do returns without a word. -/
def ByteQueue.announces : ByteQueue → ByteQueue.Call → Bool
  | .opened _ _, .write bytes => !bytes.isEmpty
  | .opened _ _, .read _ _ => false
  | .opened _ _, .signalInterrupt => true
  | .opened _ _, .close => true
  | .closed, _ => false

open ByteQueue

/-- Where a thread stands between two of its steps. -/
inductive Thread where
  /-- Outside the queue, with the reply to its last call. -/
  | idle (last : Option Reply)
  /-- About to take the lock: just come, or woken up. -/
  | calling (c : Call)
  /-- Asleep inside a read. -/
  | parked (patience : Patience) (n : Nat)
  /-- Behind the lock, about to notify the readers and to return. -/
  | notifying (c : Call) (reply : Reply)

/-- A notification makes a sleeping reader look again; nobody else notices it. -/
def Thread.notified : Thread → Thread
  | .parked patience n => .calling (.read patience n)
  | thread => thread

theorem Thread.notified_ne_parked (t : Thread) (patience : Patience) (n : Nat) :
    t.notified ≠ .parked patience n := by
  cases t <;> simp [notified]

theorem Thread.notified_eq_notifying {t : Thread} {c : Call} {reply : Reply}
    (h : t.notified = .notifying c reply) : t = .notifying c reply := by
  cases t <;> simp_all [notified]

structure SharedQueue (ι : Type) where
  queue : ByteQueue := .empty
  thread : ι → Thread := fun _ => .idle none

namespace SharedQueue

variable {ι : Type}

def notifyAll (s : SharedQueue ι) : SharedQueue ι :=
  { s with thread := fun i => (s.thread i).notified }

variable [DecidableEq ι]

def setThread (s : SharedQueue ι) (i : ι) (t : Thread) : SharedQueue ι :=
  { s with thread := Function.update s.thread i t }

/-- What one thread can do. -/
inductive Step (i : ι) (s : SharedQueue ι) : SharedQueue ι → Prop where
  | call {last : Option Reply} (c : Call) (h : s.thread i = .idle last) :
      Step i s (s.setThread i (.calling c))
  /-- The part of a call that holds the lock, up to its return if it notifies nobody. -/
  | act {c : Call} {reply : Reply} {q : ByteQueue} (h : s.thread i = .calling c)
      (hq : s.queue.call? c = some (reply, q)) :
      Step i s { s.setThread i
        (if s.queue.announces c then .notifying c reply else .idle (some reply)) with queue := q }
  /-- A look at the queue that finds nothing, after which a reader with patience falls asleep. -/
  | park {patience : Patience} {n : Nat} (h : s.thread i = .calling (.read patience n))
      (hp : patience ≠ .none) (hq : s.queue.readBlocking? n = none) :
      Step i s (s.setThread i (.parked patience n))
  /-- The end of a sleep without a notification: for no reason, or because patience has run out. -/
  | wake {patience : Patience} {n : Nat} (h : s.thread i = .parked patience n) :
      Step i s (s.setThread i (.calling (.read patience n)))
  | notify {c : Call} {reply : Reply} (h : s.thread i = .notifying c reply) :
      Step i s (s.notifyAll.setThread i (.idle (some reply)))

/-- Every interleaving: at each point any one thread may take a step. -/
def Reaches : SharedQueue ι → SharedQueue ι → Prop :=
  Relation.ReflTransGen fun s s' => ∃ i, Step i s s'

omit [DecidableEq ι] in
@[simp] theorem thread_notifyAll (s : SharedQueue ι) (i : ι) :
    s.notifyAll.thread i = (s.thread i).notified := rfl

@[simp] theorem thread_setThread_self (s : SharedQueue ι) (i : ι) (t : Thread) :
    (s.setThread i t).thread i = t := Function.update_self ..

section Moving

variable {s : SharedQueue ι} {i j : ι} {t u : Thread}

/-- A thread that stands elsewhere than the one that moves stays there. -/
theorem thread_setThread (hj : s.thread j = u) (hi : s.thread i ≠ u) :
    (s.setThread i t).thread j = u := by
  have hji : j ≠ i := by
    rintro rfl
    exact hi hj
  exact (Function.update_of_ne hji ..).trans hj

/-- A thread that stands elsewhere than where one has moved stood there before. -/
theorem of_thread_setThread (h : (s.setThread i t).thread j = u) (ht : t ≠ u) :
    s.thread j = u := by
  have hji : j ≠ i := by
    rintro rfl
    exact ht ((thread_setThread_self s j t).symm.trans h)
  exact (Function.update_of_ne hji ..).symm.trans h

/-- After a notification nobody sleeps. -/
theorem notifyAll_ne_parked {patience : Patience} {n : Nat} (ht : t ≠ .parked patience n) :
    (s.notifyAll.setThread i t).thread j ≠ .parked patience n :=
  fun h => Thread.notified_ne_parked (s.thread j) patience n (of_thread_setThread h ht)

end Moving

end SharedQueue

namespace ByteQueue

theorem call?_read_of_closed (patience : Patience) (n : Nat) :
    closed.call? (.read patience n) = some (.taken (.error .closed), .closed) := by
  have hb : closed.readBlocking? n = some (closed.read n) := by simp [readBlocking?]
  cases patience <;> simp [call?, readWith?, readTimeout, hb, read]

/-- A call that notifies nobody leaves nothing for a reader where nothing was. -/
theorem call?_quiet {before after : ByteQueue} {c : Call} {reply : Reply}
    (h : before.call? c = some (reply, after)) (ha : before.announces c = false)
    (hb : before = .opened [] false) : after = .opened [] false := by
  subst hb
  cases c with
  | read patience n =>
    rw [(call?_read_eq_some h).2]
    simp [read]
  | write bytes =>
    obtain rfl : bytes = [] := by simpa [announces] using ha
    rw [call?, Option.some.injEq, Prod.mk.injEq] at h
    exact h.2.symm
  | signalInterrupt | close => simp [announces] at ha

end ByteQueue

namespace SharedQueue

variable {ι : Type} [DecidableEq ι]

/-- Every sleeping reader has nothing to wake up for, or a thread is about to notify it; and what a
closing thread is about to notify of is a closed queue. -/
structure Attended (s : SharedQueue ι) : Prop where
  of_parked : ∀ i patience n, s.thread i = .parked patience n → s.queue ≠ .opened [] false →
    ∃ j c reply, s.thread j = .notifying c reply
  of_closing : ∀ i reply, s.thread i = .notifying .close reply → s.queue = .closed

omit [DecidableEq ι] in
theorem attended_start : Attended ({} : SharedQueue ι) :=
  ⟨fun _ _ _ h => by simp at h, fun _ _ h => by simp at h⟩

variable {s s' : SharedQueue ι} {i : ι}

/-- A step that leaves the queue alone and neither sends a reader to sleep nor is a notification
keeps every reader attended. -/
theorem Attended.setThread {t : Thread} (h : s.Attended)
    (hi : ∀ c reply, s.thread i ≠ .notifying c reply)
    (hp : ∀ patience n, t = .parked patience n → s.queue = .opened [] false)
    (hn : ∀ c reply, t ≠ .notifying c reply) : (s.setThread i t).Attended := by
  constructor
  case of_parked =>
    intro j patience n hj hq
    have hj := of_thread_setThread hj fun e => hq (hp patience n e)
    obtain ⟨k, c, reply, hk⟩ := h.of_parked j patience n hj hq
    exact ⟨k, c, reply, thread_setThread hk (hi c reply)⟩
  case of_closing =>
    intro j reply hj
    exact h.of_closing j reply (of_thread_setThread hj (hn .close reply))

theorem Attended.act {c : Call} {reply : Reply} {q : ByteQueue} (h : s.Attended)
    (hi : s.thread i = .calling c) (hq : s.queue.call? c = some (reply, q)) :
    Attended { s.setThread i
      (if s.queue.announces c then .notifying c reply else .idle (some reply)) with
      queue := q } := by
  generalize ht : (if s.queue.announces c then Thread.notifying c reply else .idle (some reply)) = t
  constructor
  case of_parked =>
    intro j patience n hj hne
    cases ha : s.queue.announces c with
    | true =>
      rw [ha, if_pos rfl] at ht
      exact ⟨i, c, reply, ht ▸ thread_setThread_self ..⟩
    | false =>
      rw [ha, if_neg Bool.false_ne_true] at ht
      obtain ⟨k, c', reply', hk⟩ :=
        h.of_parked j patience n (of_thread_setThread hj (by simp [← ht]))
          fun hb => hne (call?_quiet hq ha hb)
      exact ⟨k, c', reply', thread_setThread hk (by simp [hi])⟩
  case of_closing =>
    intro j reply' hj
    by_cases hc : c = .close
    · subst hc
      rw [call?, Option.some.injEq, Prod.mk.injEq] at hq
      exact hq.2.symm
    · have hj := h.of_closing j reply' (of_thread_setThread hj (by rw [← ht]; split <;> simp [hc]))
      rw [hj] at hq
      exact call?_closed hq

theorem Attended.notify {last : Option Reply} (h : s.Attended) :
    (s.notifyAll.setThread i (.idle last)).Attended := by
  constructor
  case of_parked =>
    intro j patience n hj
    exact absurd hj (notifyAll_ne_parked (by simp))
  case of_closing =>
    intro j reply hj
    exact h.of_closing j reply (Thread.notified_eq_notifying (of_thread_setThread hj (by simp)))

theorem Attended.step (h : s.Attended) (hs : Step i s s') : s'.Attended := by
  cases hs with
  | call c hi => exact h.setThread (by simp [hi]) (by simp) (by simp)
  | act hi hq => exact h.act hi hq
  | park hi hp hq =>
    refine h.setThread (by simp [hi]) ?_ (by simp)
    intro patience n _
    unfold readBlocking? at hq
    split at hq
    next hw => exact hw.2
    next => contradiction
  | wake hi => exact h.setThread (by simp [hi]) (by simp) (by simp)
  | notify hi => exact h.notify

theorem Reaches.attended (h : Reaches {} s) : s.Attended := by
  induction h with
  | refl => exact attended_start
  | tail _ hs ih =>
    obtain ⟨i, hs⟩ := hs
    exact ih.step hs

/-- A closed queue at which nobody sleeps, as a closing thread leaves it behind. -/
structure Deserted (s : SharedQueue ι) : Prop where
  queue_eq : s.queue = .closed
  not_parked : ∀ i patience n, s.thread i ≠ .parked patience n

theorem Deserted.setThread {t : Thread} (h : s.Deserted)
    (ht : ∀ patience n, t ≠ .parked patience n) : (s.setThread i t).Deserted :=
  ⟨h.queue_eq, fun j patience n hj =>
    h.not_parked j patience n (of_thread_setThread hj (ht patience n))⟩

theorem Deserted.step (h : s.Deserted) (hs : Step i s s') : s'.Deserted := by
  cases hs with
  | call c hi => exact h.setThread (by simp)
  | act hi hq =>
    rw [h.queue_eq] at hq ⊢
    obtain rfl := call?_closed hq
    exact ⟨rfl, (h.setThread (by simp [announces])).not_parked⟩
  | park hi hp hq => simp [h.queue_eq, readBlocking?] at hq
  | wake hi => exact h.setThread (by simp)
  | notify hi => exact ⟨h.queue_eq, fun _ _ _ => notifyAll_ne_parked (by simp)⟩

theorem Deserted.reaches (h : s.Deserted) (hs : Reaches s s') : s'.Deserted := by
  induction hs with
  | refl => exact h
  | tail _ hs ih =>
    obtain ⟨i, hs⟩ := hs
    exact ih.step hs

/-- The step of a closing thread that has given the lock back is its notification. -/
theorem Attended.deserted {reply : Reply} (h : s.Attended)
    (hi : s.thread i = .notifying .close reply) (hs : Step i s s') : s'.Deserted := by
  cases hs with
  | notify _ =>
    exact ⟨h.of_closing i reply hi, fun _ _ _ => notifyAll_ne_parked (by simp)⟩
  | call _ hi' | act hi' _ | park hi' _ _ | wake hi' =>
    rw [hi] at hi'
    contradiction

/-- A reader that has yet to look at the closed queue can only fail. -/
theorem Deserted.step_reader {patience : Patience} {n : Nat} (h : s.Deserted)
    (hi : s.thread i = .calling (.read patience n)) :
    (∃ s', Step i s s') ∧
      ∀ s', Step i s s' → s'.thread i = .idle (some (.taken (.error .closed))) := by
  have hcall : s.queue.call? (.read patience n) = some (.taken (.error .closed), .closed) := by
    rw [h.queue_eq, call?_read_of_closed]
  refine ⟨⟨_, .act hi hcall⟩, fun s' hs => ?_⟩
  cases hs with
  | act hi' hq =>
    rw [hi, Thread.calling.injEq] at hi'
    subst hi'
    rw [hcall, Option.some.injEq, Prod.mk.injEq] at hq
    obtain ⟨rfl, rfl⟩ := hq
    simp [h.queue_eq, announces]
  | park _ _ hq => simp [h.queue_eq, readBlocking?] at hq
  | call _ hi' | wake hi' | notify hi' =>
    rw [hi] at hi'
    contradiction

/-- Over every interleaving of any threads: while a reader sleeps and the queue holds a byte or an
interrupt or is closed, some thread still has its notification before it; when none has, readers
sleep only at an open queue without bytes and interrupt; and once a close has notified, nobody ever
sleeps again, and a reader still inside a read can only go on by failing. -/
theorem no_lost_wake_up (h : Reaches {} s) :
    (∀ i patience n, s.thread i = .parked patience n →
      (s.queue.bytes ≠ [] ∨ s.queue.isInterrupted = true ∨ s.queue.isClosed = true) →
      ∃ j c reply, s.thread j = .notifying c reply) ∧
    ((∀ j c reply, s.thread j ≠ .notifying c reply) →
      ∀ i patience n, s.thread i = .parked patience n → s.queue = .opened [] false) ∧
    (∀ i reply notified later, s.thread i = .notifying .close reply → Step i s notified →
      Reaches notified later →
      (∀ j patience n, later.thread j ≠ .parked patience n) ∧
      ∀ j patience n, later.thread j = .calling (.read patience n) →
        (∃ next, Step j later next) ∧
        ∀ next, Step j later next → next.thread j = .idle (some (.taken (.error .closed)))) := by
  have ha := h.attended
  refine ⟨?_, ?_, ?_⟩
  · intro i patience n hi hq
    apply ha.of_parked i patience n hi
    intro he
    simp [he, ByteQueue.bytes, isInterrupted, isClosed] at hq
  · intro hn i patience n hi
    by_contra hq
    obtain ⟨j, c, reply, hj⟩ := ha.of_parked i patience n hi hq
    exact hn j c reply hj
  · intro i reply notified later hi hs hl
    have hd := (ha.deserted hi hs).reaches hl
    exact ⟨hd.not_parked, fun j patience n hj => hd.step_reader hj⟩

/-- A reader asleep while another thread has closed the queue and not yet notified. -/
theorem no_lost_wake_up_at_close :
    ∃ s woken : SharedQueue Bool, Reaches {} s ∧ s.thread false = .parked .unlimited 1 ∧
      s.queue = .closed ∧ (∃ j c reply, s.thread j = .notifying c reply) ∧ Step true s woken ∧
      woken.thread false = .calling (.read .unlimited 1) ∧
      ∀ next, Step false woken next →
        next.thread false = .idle (some (.taken (.error .closed))) := by
  obtain ⟨s, h, hreader, hcloser, hqueue⟩ : ∃ s : SharedQueue Bool, Reaches {} s ∧
      s.thread false = .parked .unlimited 1 ∧ s.thread true = .notifying .close .done ∧
      s.queue = .closed :=
    ⟨_, .tail (.tail (.tail (.tail .refl
      ⟨false, .call (.read .unlimited 1) rfl⟩)
      ⟨false, .park rfl (by decide) rfl⟩)
      ⟨true, .call .close rfl⟩)
      ⟨true, .act (c := .close) rfl rfl⟩, rfl, rfl, rfl⟩
  obtain ⟨hattended, -, hclosed⟩ := no_lost_wake_up h
  have hstep := Step.notify hcloser
  have hwoken : (s.notifyAll.setThread true (.idle (some .done))).thread false =
      .calling (.read .unlimited 1) :=
    thread_setThread (by simp [hreader, Thread.notified]) (by simp [hcloser, Thread.notified])
  refine ⟨s, _, h, hreader, hqueue, ?_, hstep, hwoken, ?_⟩
  · exact hattended false .unlimited 1 hreader (by simp [hqueue, isClosed])
  · exact ((hclosed true .done _ _ hcloser hstep .refl).2 false .unlimited 1 hwoken).2

end SharedQueue

end TerminalShell.Channel
