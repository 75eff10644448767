import Mathlib.Logic.Function.Basic
import TerminalShell.Proofs.Channel.ChunkSize
import TerminalShell.Proofs.Channel.Directions

/-!
A terminal whose ends threads share. Each of its queues has a lock of its own, and an operation
takes the locks one after the other, so that between any two of its deeds other threads may do
theirs. An operation that nobody comes between is what it is at a terminal of a single thread.
-/
namespace TerminalShell.Channel

/-- Whether a reply ends the operation that the call is a part of. -/
def ByteQueue.Reply.isFailure : ByteQueue.Reply → Bool
  | .wrote (.error _) | .taken (.error _) => true
  | _ => false

namespace Terminal

/-- What an operation does under one lock. -/
inductive Deed where
  /-- A look at whether keystrokes are still taken. -/
  | look
  | call (d : Direction) (c : ByteQueue.Call)
  deriving DecidableEq, Repr

def Emission.call : Emission → ByteQueue.Call
  | .data bytes => .write bytes
  | .signal => .signalInterrupt

def Emission.deed (e : Emission) : Deed := .call .input e.call

namespace Operation

def deeds (interruptByte : UInt8) : Operation → List Deed
  | .screen (.read limited n) =>
    [.call .output (.read (if limited then .limited else .unlimited) n)]
  | .screen (.write bytes) => .look :: (emissions interruptByte bytes).map Emission.deed
  | .screen .interrupt => [.look, .call .input .signalInterrupt]
  | .command (.read waits n) => [.call .input (.read (if waits then .unlimited else .none) n)]
  | .stream (.read n) => [.call .input (.read .unlimited n)]
  | .command (.write bytes) | .stream (.write bytes) => [.call .output (.write bytes)]
  | .screen .close | .command .close | .stream .close =>
    [.call .input .close, .call .output .close]

/-- The reply to an operation whose look finds the queue closed. -/
def refusal : Operation → Reply
  | .screen .interrupt => .signalled (.error .closed)
  | _ => .wrote (.error .closed)

/-- The reply to an operation that ends with the given reply to a call. -/
def answer : Operation → ByteQueue.Reply → Reply
  | .screen (.write bytes), .wrote (.ok _) => .wrote (.ok bytes.length)
  | .screen .interrupt, .done => .signalled (.ok ())
  | _, .wrote result => .wrote result
  | _, .taken result => .read (.ofResult result)
  | _, .done => .done

end Operation

/-- Where a thread stands between two locks. -/
inductive Caller where
  /-- Outside, with the reply to its last operation. -/
  | idle (last : Option Reply)
  | inside (op : Operation) (left : List Deed)

/-- Where the reply to a call leaves its thread: an operation ends with its last call, or with one
that fails. -/
def Caller.resume (op : Operation) (left : List Deed) (reply : ByteQueue.Reply) : Caller :=
  if left = [] ∨ reply.isFailure then .idle (some (op.answer reply)) else .inside op left

@[simp] theorem Caller.resume_nil (op : Operation) (reply : ByteQueue.Reply) :
    Caller.resume op [] reply = .idle (some (op.answer reply)) := by
  simp [resume]

theorem Caller.resume_of_isFailure {reply : ByteQueue.Reply} (h : reply.isFailure = true)
    (op : Operation) (left : List Deed) :
    Caller.resume op left reply = .idle (some (op.answer reply)) := by
  simp [resume, h]

theorem Caller.resume_of_ne_nil {reply : ByteQueue.Reply} {left : List Deed}
    (h : reply.isFailure = false) (hl : left ≠ []) (op : Operation) :
    Caller.resume op left reply = .inside op left := by
  simp [resume, h, hl]

end Terminal

namespace ByteQueue

theorem call?_read_unlimited {n : Nat} {q : ByteQueue} (h : (awaited.read n q).1 ≠ .waiting) :
    ∃ result q', q.call? (.read .unlimited n) = some (.taken result, q') ∧
      awaited.read n q = (.ofResult result, q') := by
  cases hb : q.readBlocking? n with
  | none => simp [awaited, hb] at h
  | some answer =>
    refine ⟨answer.1, answer.2, ?_, ?_⟩
    · simp [call?, readWith?, hb]
    · simp [awaited, hb]

end ByteQueue

namespace Terminal

theorem Operation.direction?_of_deeds_eq {op : Operation} {interruptByte : UInt8} {d : Direction}
    {c : ByteQueue.Call} (hd : op.deeds interruptByte = [.call d c]) : op.direction? = some d := by
  rcases op with (_ | _ | _ | _) | (_ | _ | _) | (_ | _ | _) <;> simp_all [deeds, direction?]

/-- An operation of a single call has the effect of that call. -/
theorem Operation.effect_of_deeds_eq {op : Operation} {interruptByte : UInt8} {d : Direction}
    {c : ByteQueue.Call} {q : ByteQueue} (hd : op.deeds interruptByte = [.call d c])
    (hw : (op.effect interruptByte q).1 ≠ .read .waiting) :
    ∃ reply q', q.call? c = some (reply, q') ∧
      op.effect interruptByte q = (op.answer reply, q') := by
  have hread {n : Nat} (h : Reply.read (ByteQueue.awaited.read n q).1 ≠ .read .waiting) :=
    ByteQueue.call?_read_unlimited (n := n) (q := q) fun he => h (congrArg Reply.read he)
  rcases op with (⟨_ | _, n⟩ | bytes | _ | _) | (⟨_ | _, n⟩ | bytes | _) | (n | bytes | _)
  case screen.write | screen.interrupt | screen.close | command.close | stream.close =>
    simp [deeds] at hd
  all_goals
    simp only [deeds, List.cons.injEq, Deed.call.injEq, and_true] at hd
    obtain ⟨-, rfl⟩ := hd
  case screen.read.false | command.read.true | stream.read =>
    obtain ⟨result, q', hq, he⟩ := hread hw
    exact ⟨_, q', hq, by simp [effect, answer, he]⟩
  case screen.read.true =>
    refine ⟨.taken (q.read n).1, (q.read n).2, ?_, rfl⟩
    simp [ByteQueue.call?, ByteQueue.readWith?, ByteQueue.readTimeout_eq_read]
  all_goals exact ⟨_, _, rfl, rfl⟩

namespace Emission

def reply (q : ByteQueue) : Emission → ByteQueue.Reply
  | .data bytes => .wrote (q.write bytes).1
  | .signal => .done

theorem call?_call (e : Emission) (q : ByteQueue) :
    q.call? e.call = some (e.reply q, apply q e) := by
  cases e <;> rfl

theorem reply_data (piece : List UInt8) (q : ByteQueue) :
    (Emission.data piece).reply q =
      .wrote (if q.isClosed then .error .closed else .ok piece.length) := by
  cases q <;> rfl

/-- An open queue refuses nothing that is typed. -/
theorem isFailure_reply {q : ByteQueue} (h : q.isClosed = false) (e : Emission) :
    (e.reply q).isFailure = false ∧ (apply q e).isClosed = false := by
  cases q with
  | closed => contradiction
  | opened bytes interrupted => cases e <;> exact ⟨rfl, rfl⟩

end Emission

/-- Emissions of which the last is data, so that their last call is one that a closed queue
refuses. -/
inductive Emission.EndsInData : List Emission → Prop where
  | last (piece : List UInt8) : EndsInData [.data piece]
  | cons (e : Emission) {es : List Emission} (h : EndsInData es) : EndsInData (e :: es)

theorem Emission.EndsInData.ne_nil {es : List Emission} (h : EndsInData es) : es ≠ [] := by
  cases h <;> simp

theorem Emission.EndsInData.map_ne_nil {es : List Emission} (h : EndsInData es) :
    es.map Emission.deed ≠ [] := by
  simpa using h.ne_nil

theorem endsInData_emissions (interruptByte : UInt8) (bytes : List UInt8) :
    Emission.EndsInData (emissions interruptByte bytes) := by
  induction bytes with
  | nil => exact .last []
  | cons b bytes ih =>
    by_cases hb : b = interruptByte
    · subst hb
      rw [emissions_cons_self]
      exact .cons _ (.cons _ ih)
    · obtain ⟨piece, more, hp, hcons⟩ := emissions_cons_of_ne hb bytes
      rw [hcons]
      rw [hp] at ih
      cases ih with
      | last => exact .last _
      | cons _ ih => exact .cons _ ih

end Terminal

open Terminal

structure SharedTerminal (ι : Type) where
  terminal : Terminal := {}
  caller : ι → Caller := fun _ => .idle none

namespace SharedTerminal

variable {ι : Type} [DecidableEq ι]

def put (s : SharedTerminal ι) (i : ι) (c : Caller) (t : Terminal) : SharedTerminal ι where
  terminal := t
  caller := Function.update s.caller i c

/-- What can be seen of a step. -/
inductive Move where
  | enter (op : Operation)
  | look
  | call (d : Direction) (e : ByteQueue.Event)

/-- What one thread can do. -/
inductive Step (i : ι) (s : SharedTerminal ι) : Move → SharedTerminal ι → Prop where
  | enter {last : Option Reply} (op : Operation) (h : s.caller i = .idle last) :
      Step i s (.enter op) (s.put i (.inside op (op.deeds s.terminal.interruptByte)) s.terminal)
  | look {op : Operation} {left : List Deed} (h : s.caller i = .inside op (.look :: left)) :
      Step i s .look
        (s.put i (if s.terminal.input.isClosed then .idle (some op.refusal) else .inside op left)
          s.terminal)
  | call {op : Operation} {d : Direction} {c : ByteQueue.Call} {left : List Deed}
      {reply : ByteQueue.Reply} {q : ByteQueue} (h : s.caller i = .inside op (.call d c :: left))
      (hq : (s.terminal.queue d).call? c = some (reply, q)) :
      Step i s (.call d ⟨c, reply, s.terminal.queue d, q⟩)
        (s.put i (.resume op left reply) (s.terminal.setQueue q d))

/-- Any interleaving: the moves of all threads in the order in which they take place. -/
inductive Run : SharedTerminal ι → List (ι × Move) → SharedTerminal ι → Prop where
  | nil (s : SharedTerminal ι) : Run s [] s
  | cons {s s' last : SharedTerminal ι} {i : ι} {m : Move} {moves : List (ι × Move)}
      (step : Step i s m s') (rest : Run s' moves last) : Run s ((i, m) :: moves) last

variable {s s' : SharedTerminal ι} {i j : ι}

@[simp] theorem terminal_put (s : SharedTerminal ι) (i : ι) (c : Caller) (t : Terminal) :
    (s.put i c t).terminal = t := rfl

@[simp] theorem caller_put_self (s : SharedTerminal ι) (i : ι) (c : Caller) (t : Terminal) :
    (s.put i c t).caller i = c := Function.update_self ..

theorem caller_put_of_ne (h : j ≠ i) (s : SharedTerminal ι) (c : Caller) (t : Terminal) :
    (s.put i c t).caller j = s.caller j := Function.update_of_ne h ..

@[simp] theorem put_put (s : SharedTerminal ι) (i : ι) (c c' : Caller) (t t' : Terminal) :
    (s.put i c t).put i c' t' = s.put i c' t' := by
  simp [put]

/-- A thread is where it was when another has moved. -/
theorem Step.caller_of_ne {m : Move} (h : Step i s m s') (hj : j ≠ i) :
    s'.caller j = s.caller j := by
  cases h with
  | enter | look | call => exact caller_put_of_ne hj ..

section Alone

variable {last : Option Reply} {op : Operation} {t : Terminal}

theorem step_look (left : List Deed) (h : t.input.isClosed = false) :
    Step i (s.put i (.inside op (.look :: left)) t) .look (s.put i (.inside op left) t) := by
  have hlook := Step.look (s := s.put i (.inside op (.look :: left)) t) (caller_put_self ..)
  rwa [put_put, terminal_put, h, if_neg Bool.false_ne_true] at hlook

theorem step_look_of_isClosed (left : List Deed) (h : t.input.isClosed = true) :
    Step i (s.put i (.inside op (.look :: left)) t) .look
      (s.put i (.idle (some op.refusal)) t) := by
  have hlook := Step.look (s := s.put i (.inside op (.look :: left)) t) (caller_put_self ..)
  rwa [put_put, terminal_put, h, if_pos rfl] at hlook

theorem step_call (s : SharedTerminal ι) (i : ι) (op : Operation) (left : List Deed)
    {d : Direction} {c : ByteQueue.Call} {reply : ByteQueue.Reply} {q : ByteQueue}
    (hq : (t.queue d).call? c = some (reply, q)) :
    Step i (s.put i (.inside op (.call d c :: left)) t) (.call d ⟨c, reply, t.queue d, q⟩)
      (s.put i (.resume op left reply) (t.setQueue q d)) := by
  have hcall := Step.call (s := s.put i (.inside op (.call d c :: left)) t) (caller_put_self ..) hq
  rwa [put_put] at hcall

theorem exists_run_of_deeds_eq {d : Direction} {c : ByteQueue.Call}
    (hi : s.caller i = .idle last) (hd : op.deeds s.terminal.interruptByte = [.call d c])
    (hw : (s.terminal.perform op).1 ≠ .read .waiting) :
    ∃ moves : List Move, Run s (moves.map (i, ·))
      (s.put i (.idle (some (s.terminal.perform op).1)) (s.terminal.perform op).2) := by
  rw [perform_of_direction? (Operation.direction?_of_deeds_eq hd)] at hw ⊢
  obtain ⟨reply, q, hq, he⟩ := Operation.effect_of_deeds_eq hd hw
  have hcall := step_call s i op [] hq
  rw [Caller.resume_nil, ← hd] at hcall
  rw [he]
  exact ⟨[.enter op, .call d _], .cons (.enter op hi) (.cons hcall (.nil _))⟩

theorem step_emission (s : SharedTerminal ι) (i : ι) (op : Operation) (t : Terminal) (e : Emission)
    (left : List Deed) :
    Step i (s.put i (.inside op (e.deed :: left)) t)
      (.call .input ⟨e.call, e.reply t.input, t.input, Emission.apply t.input e⟩)
      (s.put i (.resume op left (e.reply t.input))
        { t with input := Emission.apply t.input e }) :=
  step_call s i op left (e.call?_call t.input)

theorem exists_run_of_endsInData {es : List Emission} (h : Emission.EndsInData es)
    (ht : t.input.isClosed = false) (bytes : List UInt8) :
    ∃ moves : List Move,
      Run (s.put i (.inside (.screen (.write bytes)) (es.map Emission.deed)) t) (moves.map (i, ·))
        (s.put i (.idle (some (.wrote (.ok bytes.length))))
          { t with input := es.foldl Emission.apply t.input }) := by
  induction h generalizing t with
  | last piece =>
    have hstep := step_emission s i (.screen (.write bytes)) t (.data piece) []
    rw [Emission.reply_data, ht, Caller.resume_nil] at hstep
    exact ⟨[_], .cons hstep (.nil _)⟩
  | @cons e es h ih =>
    obtain ⟨hr, ho⟩ := Emission.isFailure_reply ht e
    have hstep := step_emission s i (.screen (.write bytes)) t e (es.map Emission.deed)
    rw [Caller.resume_of_ne_nil hr h.map_ne_nil] at hstep
    obtain ⟨moves, hrun⟩ := ih (t := { t with input := Emission.apply t.input e }) ho
    exact ⟨_ :: moves, .cons hstep hrun⟩

/-- An operation that nobody comes between has the reply and the effect that it has at a terminal of
a single thread, unless it has to wait. -/
theorem exists_run_perform (hi : s.caller i = .idle last) (op : Operation)
    (hw : (s.terminal.perform op).1 ≠ .read .waiting) :
    ∃ moves : List Move, Run s (moves.map (i, ·))
      (s.put i (.idle (some (s.terminal.perform op).1)) (s.terminal.perform op).2) := by
  have henter := Step.enter op hi
  rcases op with (_ | bytes | _ | _) | (_ | _ | _) | (_ | _ | _)
  case screen.write =>
    simp only [perform, callScreen, typeBytes]
    cases hc : s.terminal.input.isClosed with
    | true => exact ⟨[_, _], .cons henter (.cons (step_look_of_isClosed _ hc) (.nil _))⟩
    | false =>
      obtain ⟨moves, hrun⟩ := exists_run_of_endsInData (s := s) (i := i)
        (endsInData_emissions s.terminal.interruptByte bytes) hc bytes
      exact ⟨_ :: _ :: moves, .cons henter (.cons (step_look _ hc) hrun)⟩
  case screen.interrupt =>
    simp only [perform, callScreen, interrupt]
    cases hc : s.terminal.input.isClosed with
    | true => exact ⟨[_, _], .cons henter (.cons (step_look_of_isClosed _ hc) (.nil _))⟩
    | false =>
      exact ⟨[_, _, _],
        .cons henter (.cons (step_look _ hc) (.cons (step_emission _ _ _ _ .signal []) (.nil _)))⟩
  case screen.close | command.close | stream.close =>
    exact ⟨[_, _, _],
      .cons henter (.cons (step_call _ _ _ _ rfl) (.cons (step_call _ _ _ [] rfl) (.nil _)))⟩
  all_goals exact exists_run_of_deeds_eq hi rfl hw

end Alone

end SharedTerminal

end TerminalShell.Channel
