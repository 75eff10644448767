import TerminalShell.Proofs.Channel.RacingWrite

/-!
What a typed text leaves at the terminal when nobody comes between. It depends on the bytes alone
and not on the pieces in which they are typed, in every state that a terminal can be in. A terminal
whose output is closed takes no keystrokes either: a close reaches the input first.
-/
namespace TerminalShell.Channel

namespace Terminal

variable {t : Terminal}

theorem typeBytes_of_isClosed (h : t.input.isClosed = true) (bytes : List UInt8) :
    t.typeBytes bytes = (.error .closed, t) := by
  simp [typeBytes, h]

theorem typeBytes_of_opened {queued : List UInt8} {interrupted : Bool}
    (h : t.input = .opened queued interrupted) (bytes : List UInt8) :
    t.typeBytes bytes = (.ok bytes.length,
      { t with
        input := .opened (queued ++ bytes.filter (· != t.interruptByte))
          (interrupted || bytes.contains t.interruptByte) }) := by
  simp [typeBytes, h, ByteQueue.isClosed, foldl_emissions]

theorem typeBytes_typeBytes (t : Terminal) (first second : List UInt8) :
    ((t.typeBytes first).2.typeBytes second).2 = (t.typeBytes (first ++ second)).2 := by
  cases h : t.input with
  | closed =>
    have hc : t.input.isClosed = true := by rw [h]; rfl
    simp only [typeBytes_of_isClosed hc]
  | opened queued interrupted =>
    rw [typeBytes_of_opened h, typeBytes_of_opened h, typeBytes_of_opened rfl]
    simp [Bool.or_assoc]

theorem foldl_typeBytes (t : Terminal) (pieces : List (List UInt8)) :
    pieces.foldl (fun t piece => (t.typeBytes piece).2) t = (t.typeBytes pieces.flatten).2 := by
  induction pieces generalizing t with
  | nil =>
    cases h : t.input with
    | closed => simp [typeBytes, h, ByteQueue.isClosed]
    | opened queued interrupted =>
      rw [List.flatten_nil, typeBytes_of_opened h]
      simp [← h]
  | cons piece pieces ih => rw [List.foldl_cons, ih, typeBytes_typeBytes, List.flatten_cons]

theorem interrupt_eq_typeBytes (t : Terminal) :
    t.interrupt.2 = (t.typeBytes [t.interruptByte]).2 := by
  cases h : t.input with
  | closed => simp [interrupt, typeBytes, h, ByteQueue.isClosed]
  | opened queued interrupted =>
    rw [typeBytes_of_opened h]
    simp [interrupt, h, ByteQueue.isClosed, ByteQueue.signalInterrupt]

/-- A read that has to wait leaves the terminal as it is. -/
theorem perform_of_waiting {op : Operation} (h : (t.perform op).1 = .read .waiting) :
    (t.perform op).2 = t := by
  have hawaited {n : Nat} {q : ByteQueue} (hw : (ByteQueue.awaited.read n q).1 = .waiting) :
      (ByteQueue.awaited.read n q).2 = q := by
    rcases q.awaited_read_cases n with ⟨hq, -⟩ | hq
    · rw [hq]
    · rw [hq] at hw
      cases hr : (q.read n).1 <;> simp [hr, Reading.ofResult] at hw
  have hresult (result : Except ChannelError (List UInt8)) :
      Reading.ofResult result ≠ .waiting := by
    cases result <;> simp [Reading.ofResult]
  cases hd : op.direction? with
  | none => simp [perform_of_close hd] at h
  | some d =>
    rw [perform_of_direction? hd] at h ⊢
    have heffect : (op.effect t.interruptByte (t.queue d)).2 = t.queue d := by
      rcases op with (⟨_ | _, n⟩ | bytes | _ | _) | (⟨_ | _, n⟩ | bytes | _) | (n | bytes | _)
      case screen.read.false | command.read.true | stream.read =>
        simp only [Operation.effect, Reply.read.injEq] at h ⊢
        exact hawaited h
      case screen.read.true | command.read.false =>
        simp [Operation.effect, hresult] at h
      case screen.write | screen.interrupt =>
        simp only [Operation.effect] at h
        split at h <;> simp at h
      all_goals simp [Operation.effect] at h
    rw [heffect]
    cases d <;> rfl

end Terminal

namespace ByteQueue

/-- Only a close closes a queue. -/
theorem call_eq_close {before after : ByteQueue} {c : Call} {reply : Reply}
    (h : before.call? c = some (reply, after)) (hb : before.isClosed = false)
    (ha : after = .closed) : c = .close := by
  cases before with
  | closed => contradiction
  | opened bytes interrupted =>
    by_contra hc
    have hopen := (call?_opened h hc).1
    rw [ha] at hopen
    contradiction

end ByteQueue

open Terminal

namespace SharedTerminal

variable {ι : Type} [DecidableEq ι] {s s' : SharedTerminal ι} {i : ι}

theorem Run.append {middle : SharedTerminal ι} {first second : List (ι × Move)}
    (hf : Run s first middle) (hs : Run middle second s') : Run s (first ++ second) s' := by
  induction hf with
  | nil s => exact hs
  | cons step _ ih => exact .cons step (ih hs)

theorem Step.input_closed {m : Move} (h : Step i s m s') (hc : s.terminal.input = .closed) :
    s'.terminal.input = .closed :=
  (h.input.refused hc).1

/-- The output is closed behind the input: by then, and by each thread that has yet to close it. -/
structure ClosesInOrder (interruptByte : UInt8) (s : SharedTerminal ι) : Prop where
  interruptByte_eq : s.terminal.interruptByte = interruptByte
  of_closed : s.terminal.output = .closed → s.terminal.input = .closed
  of_closing : ∀ j op left, s.caller j = .inside op left → .call .output .close ∈ left →
    s.terminal.input = .closed ∨ left = [.call .input .close, .call .output .close]

theorem deeds_eq_of_closing {op : Operation} {interruptByte : UInt8}
    (h : .call .output .close ∈ op.deeds interruptByte) :
    op.deeds interruptByte = [.call .input .close, .call .output .close] := by
  rcases op with (_ | _ | _ | _) | (_ | _ | _) | (_ | _ | _) <;>
    simp_all [Operation.deeds, Emission.deed]

/-- A step keeps the order if it keeps it at the terminal and in what is left to its own thread. -/
theorem ClosesInOrder.put {interruptByte : UInt8} {c : Caller} {t : Terminal}
    (h : s.ClosesInOrder interruptByte) (hb : t.interruptByte = s.terminal.interruptByte)
    (hi : s.terminal.input = .closed → t.input = .closed)
    (ho : t.output = .closed → t.input = .closed)
    (hl : ∀ op left, c = .inside op left → .call .output .close ∈ left →
      t.input = .closed ∨ left = [.call .input .close, .call .output .close]) :
    (s.put i c t).ClosesInOrder interruptByte := by
  refine ⟨hb.trans h.interruptByte_eq, ho, fun j op left hj hm => ?_⟩
  by_cases hji : j = i
  · subst hji
    rw [caller_put_self] at hj
    exact hl op left hj hm
  · rw [caller_put_of_ne hji] at hj
    exact (h.of_closing j op left hj hm).imp_left hi

section Call

variable {interruptByte : UInt8} {op : Operation} {d : Direction} {c : ByteQueue.Call}
  {left : List Deed} {reply : ByteQueue.Reply} {q : ByteQueue}

/-- A thread with the output still to close has closed the input by the call that it makes. -/
theorem ClosesInOrder.input_of_closing (h : s.ClosesInOrder interruptByte)
    (hi : s.caller i = .inside op (.call d c :: left))
    (hq : (s.terminal.queue d).call? c = some (reply, q)) (hm : .call .output .close ∈ left) :
    (s.terminal.setQueue q d).input = .closed := by
  rcases h.of_closing i op _ hi (List.mem_cons_of_mem _ hm) with hclosed | hleft
  · exact (Step.call hi hq).input_closed hclosed
  · simp only [List.cons.injEq, Deed.call.injEq] at hleft
    obtain ⟨⟨rfl, rfl⟩, -⟩ := hleft
    rw [ByteQueue.call?, Option.some.injEq, Prod.mk.injEq] at hq
    exact hq.2.symm

/-- A call that closes the output finds the input closed. -/
theorem ClosesInOrder.input_of_closed (h : s.ClosesInOrder interruptByte)
    (hi : s.caller i = .inside op (.call d c :: left))
    (hq : (s.terminal.queue d).call? c = some (reply, q))
    (hout : (s.terminal.setQueue q d).output = .closed) :
    (s.terminal.setQueue q d).input = .closed := by
  cases d with
  | input => exact (Step.call hi hq).input_closed (h.of_closed hout)
  | output =>
    cases ho : s.terminal.output.isClosed with
    | true => exact h.of_closed ((ByteQueue.isClosed_iff _).mp ho)
    | false =>
      obtain rfl := ByteQueue.call_eq_close hq ho hout
      exact (h.of_closing i op _ hi List.mem_cons_self).resolve_right fun he => by simp at he

end Call

theorem ClosesInOrder.step {interruptByte : UInt8} {m : Move}
    (h : s.ClosesInOrder interruptByte) (hs : Step i s m s') :
    s'.ClosesInOrder interruptByte := by
  have hkept := hs.input_closed
  cases hs with
  | enter op hi =>
    refine h.put rfl id h.of_closed fun op' left hc hm => .inr ?_
    rw [Caller.inside.injEq] at hc
    obtain ⟨rfl, rfl⟩ := hc
    exact deeds_eq_of_closing hm
  | @look op left hi =>
    refine h.put rfl id h.of_closed fun op' left' hc hm => ?_
    split at hc
    · contradiction
    · rw [Caller.inside.injEq] at hc
      obtain ⟨rfl, rfl⟩ := hc
      exact (h.of_closing i _ _ hi (List.mem_cons_of_mem _ hm)).imp_right fun he => by simp at he
  | @call op d c left reply q hi hq =>
    refine h.put (by cases d <;> rfl) hkept (h.input_of_closed hi hq) fun op' left' hc hm => ?_
    unfold Caller.resume at hc
    split at hc
    · contradiction
    · rw [Caller.inside.injEq] at hc
      obtain ⟨rfl, rfl⟩ := hc
      exact .inl (h.input_of_closing hi hq hm)

theorem Run.closesInOrder {interruptByte : UInt8} {moves : List (ι × Move)} (h : Run s moves s')
    (hs : s.ClosesInOrder interruptByte) : s'.ClosesInOrder interruptByte := by
  induction h with
  | nil s => exact hs
  | cons step _ ih => exact ih (hs.step step)

/-- What a single thread does in a row is a run. -/
theorem exists_run_after {last : Option Reply} (hi : s.caller i = .idle last)
    (ops : List Operation) : ∃ moves s', Run s moves s' ∧ s'.terminal = s.terminal.after ops := by
  induction ops generalizing s last with
  | nil => exact ⟨[], s, .nil s, rfl⟩
  | cons op ops ih =>
    by_cases hw : (s.terminal.perform op).1 = .read .waiting
    · obtain ⟨moves, s', hrun, hlast⟩ := ih hi
      refine ⟨moves, s', hrun, ?_⟩
      rw [hlast, after, after, List.foldl_cons, perform_of_waiting hw]
    · obtain ⟨moves, hrun⟩ := exists_run_perform hi op hw
      obtain ⟨more, s', hrest, hlast⟩ := ih (caller_put_self s i _ (s.terminal.perform op).2)
      exact ⟨_, s', hrun.append hrest, hlast⟩

end SharedTerminal

namespace Terminal

/-- The states that a new terminal can come to, whatever any number of threads do at its ends. -/
def Reachable (interruptByte : UInt8) (t : Terminal) : Prop :=
  ∃ (moves : List (Nat × SharedTerminal.Move)) (s : SharedTerminal Nat),
    SharedTerminal.Run { terminal := { interruptByte } } moves s ∧ s.terminal = t

theorem reachable_after (interruptByte : UInt8) (ops : List Operation) :
    Reachable interruptByte (({ interruptByte } : Terminal).after ops) :=
  SharedTerminal.exists_run_after (i := 0) rfl ops

theorem Reachable.closesInOrder {interruptByte : UInt8} {t : Terminal}
    (h : t.Reachable interruptByte) :
    t.interruptByte = interruptByte ∧ (t.isClosed = true → t.input.isClosed = true) := by
  obtain ⟨moves, s, hrun, rfl⟩ := h
  have horder := hrun.closesInOrder ⟨rfl, by simp [ByteQueue.empty], by simp⟩
  refine ⟨horder.interruptByte_eq, fun hc => ?_⟩
  rw [isClosed, Bool.or_eq_true] at hc
  refine hc.elim id fun ho => ?_
  rw [horder.of_closed ((ByteQueue.isClosed_iff _).mp ho)]
  rfl

/-- In every state that a terminal can come to: while it is open, typed bytes are accepted as a
whole, those that do not interrupt follow what waits, in order, an interrupt is pending afterwards
exactly when one was or one has been typed, and the output stays as it is; once it is closed, typing
fails and changes nothing. So it makes no difference into which pieces a text is cut, and an
interrupt is as good as its byte. -/
theorem typing_ungrouped {interruptByte : UInt8} {t : Terminal} (h : t.Reachable interruptByte)
    (bytes : List UInt8) :
    let typed := (t.typeBytes bytes).2
    (t.isClosed = false →
      (t.typeBytes bytes).1 = .ok bytes.length ∧
      typed.input.bytes = t.input.bytes ++ bytes.filter (· != interruptByte) ∧
      (typed.input.isInterrupted = true ↔
        t.input.isInterrupted = true ∨ interruptByte ∈ bytes) ∧
      typed.output = t.output ∧ typed.isClosed = false ∧ typed.interruptByte = interruptByte) ∧
    (t.isClosed = true → t.typeBytes bytes = (.error .closed, t)) ∧
    (∀ first second, bytes = first ++ second →
      ((t.typeBytes first).2.typeBytes second).2 = typed) ∧
    (∀ pieces : List (List UInt8), pieces.flatten = bytes →
      pieces.foldl (fun t piece => (t.typeBytes piece).2) t = typed) ∧
    t.interrupt.2 = (t.typeBytes [interruptByte]).2 := by
  intro typed
  obtain ⟨rfl, hclosed⟩ := h.closesInOrder
  refine ⟨fun ho => ?_, fun hc => typeBytes_of_isClosed (hclosed hc) bytes, ?_, ?_,
    t.interrupt_eq_typeBytes⟩
  · obtain ⟨hinput, houtput⟩ := Bool.or_eq_false_iff.mp ho
    cases hq : t.input with
    | closed => simp [hq, ByteQueue.isClosed] at hinput
    | opened queued interrupted =>
      simp only [typed, typeBytes_of_opened hq]
      refine ⟨trivial, rfl, ?_, trivial, houtput, trivial⟩
      simp [ByteQueue.isInterrupted]
  · rintro first second rfl
    exact t.typeBytes_typeBytes first second
  · rintro pieces rfl
    exact t.foldl_typeBytes pieces

/-- Interrupt bytes at both ends and in a row, typed behind an interrupt that the command has taken
and a byte that it has not. -/
theorem typing_ungrouped_interrupts :
    let t := ({ interruptByte := 28 } : Terminal).after
      [.screen (.write [28]), .command (.read false 4), .screen (.write [97])]
    t.Reachable 28 ∧ t.isClosed = false ∧
      (t.typeBytes [28, 98, 28, 28, 3, 28]).1 = .ok 6 ∧
      (t.typeBytes [28, 98, 28, 28, 3, 28]).2.input.bytes = [97, 98, 3] ∧
      (t.typeBytes [28, 98, 28, 28, 3, 28]).2.input.isInterrupted = true ∧
      ((t.typeBytes [28, 98, 28]).2.typeBytes [28, 3, 28]).2 =
        (t.typeBytes [28, 98, 28, 28, 3, 28]).2 := by
  intro t
  have h : t.Reachable 28 := reachable_after 28 _
  have ho : t.isClosed = false := rfl
  obtain ⟨hopen, -, hsplit, -⟩ := typing_ungrouped h [28, 98, 28, 28, 3, 28]
  obtain ⟨hlength, hbytes, hinterrupted, -⟩ := hopen ho
  exact ⟨h, ho, hlength, hbytes, hinterrupted.mpr (.inr List.mem_cons_self),
    hsplit [28, 98, 28] [28, 3, 28] rfl⟩

end Terminal

end TerminalShell.Channel
