import TerminalShell.Proofs.Command.PipeIsolation

/-!
A queue as the buffer between two stages: it is written to, read, taken whole and closed, and
nothing interrupts it. Main statement: taking the whole buffer by reads of a bounded size loses no
byte, whatever has been done to the buffer before.
-/
namespace TerminalShell.Channel.ByteQueue

theorem drain_nil (chunk : Nat) (interrupted : Bool) :
    (opened [] interrupted).drain chunk =
      (if interrupted then .error .interrupted else .ok [], .empty) := by
  have hread : (opened [] interrupted).read chunk =
      (if interrupted then .error .interrupted else .ok [], .empty) := by
    cases interrupted <;> simp [read, empty]
  rw [drain]
  split
  next hr => rw [← hread, hr]
  next hr => rw [← hread, hr]
  next hr => cases interrupted <;> simp [hread] at hr

theorem drain_of_read {chunk : Nat} {q rest : ByteQueue} {b : UInt8} {taken : List UInt8}
    (h : q.read chunk = (.ok (b :: taken), rest)) :
    q.drain chunk = ((rest.drain chunk).1.map (b :: taken ++ ·), (rest.drain chunk).2) := by
  rw [drain]
  split
  next hr => simp [hr] at h
  next hr => simp [hr] at h
  next hr =>
    rw [h, Prod.mk.injEq, Except.ok.injEq, List.cons.injEq] at hr
    obtain ⟨⟨rfl, rfl⟩, rfl⟩ := hr
    rfl

/-- A drain comes to the end of an open queue, however many reads it takes. What it has read by then
is lost if it finds an interrupt there. -/
theorem drain_opened {chunk : Nat} (hc : chunk ≠ 0) (held : List UInt8) (interrupted : Bool) :
    (opened held interrupted).drain chunk =
      (if interrupted then .error .interrupted else .ok held, .empty) := by
  obtain ⟨k, rfl⟩ : ∃ k, chunk = k + 1 := Nat.exists_eq_succ_of_ne_zero hc
  -- on the number of bytes, since each read takes one or more of them
  induction hlength : held.length using Nat.strongRecOn generalizing held with
  | ind length ih =>
    subst hlength
    cases held with
    | nil => exact drain_nil _ _
    | cons b held =>
      have hread : (opened (b :: held) interrupted).read (k + 1) =
          (.ok (b :: held.take k), .opened (held.drop k) interrupted) := rfl
      have hshorter : (held.drop k).length < (b :: held).length := by
        rw [List.length_drop, List.length_cons]
        omega
      rw [drain_of_read hread, ih _ hshorter _ rfl]
      cases interrupted with
      | false => simp [Except.map]
      | true => rfl

theorem takeAll_ofBytes (held : List UInt8) : (ofBytes held).takeAll = (.ok held, .empty) :=
  drain_opened (by decide) held false

theorem takeAll_closed : closed.takeAll = (.error .closed, .closed) := by
  rw [takeAll, drain]
  rfl

def Reply.error? : Reply → Option ChannelError
  | .wrote (.error e) => some e
  | .taken (.error e) => some e
  | _ => none

end TerminalShell.Channel.ByteQueue

namespace TerminalShell.Command
open TerminalShell.Channel TerminalShell.Channel.ByteQueue

/-- What is done to a buffer: what is done to any stream, and all of it can be taken. -/
inductive BufferCall where
  | stream (c : StreamCall)
  | takeAll
  deriving DecidableEq, Repr

namespace BufferCall

def on (c : BufferCall) (q : ByteQueue) : Reply × ByteQueue :=
  match c with
  | .stream c => c.on q
  | .takeAll => (.taken q.takeAll.1, q.takeAll.2)

def written : BufferCall → List UInt8
  | .stream c => c.written
  | .takeAll => []

/-- While a buffer is open every call succeeds, and what it gives out and what is left are what
there was and what the call brings. -/
theorem on_ofBytes (held : List UInt8) {c : BufferCall} (hc : c ≠ .stream .close) :
    ∃ left, (c.on (.ofBytes held)).2 = .ofBytes left ∧
      taken (c.on (.ofBytes held)).1 ++ left = held ++ c.written ∧
      (c.on (.ofBytes held)).1.error? = none := by
  cases c with
  | takeAll =>
    simp only [on, takeAll_ofBytes]
    exact ⟨[], rfl, rfl, rfl⟩
  | stream c =>
    cases c with
    | write bytes => exact ⟨held ++ bytes, rfl, rfl, rfl⟩
    | read n =>
      have hread : (ofBytes held).read n = (.ok (held.take n), .ofBytes (held.drop n)) := by
        simp [ByteQueue.read, ofBytes]
      simp only [on, StreamCall.on, hread]
      exact ⟨held.drop n, rfl, by simp [taken, written, StreamCall.written], rfl⟩
    | close => exact absurd rfl hc

theorem on_closed (c : BufferCall) :
    (c.on .closed).2 = .closed ∧
      (c.on .closed).1.error? = if c = .stream .close then none else some .closed := by
  cases c with
  | takeAll =>
    rw [on, takeAll_closed]
    exact ⟨rfl, rfl⟩
  | stream c => cases c <;> exact ⟨rfl, rfl⟩

end BufferCall

/-- The replies to some calls in a row, and the buffer behind the last one. -/
def serve (q : ByteQueue) (calls : List BufferCall) : List Reply × ByteQueue :=
  answers (fun q c => c.on q) q calls

theorem serve_cons (q : ByteQueue) (c : BufferCall) (calls : List BufferCall) :
    serve q (c :: calls) =
      ((c.on q).1 :: (serve (c.on q).2 calls).1, (serve (c.on q).2 calls).2) := rfl

theorem serve_append (q : ByteQueue) (first second : List BufferCall) :
    serve q (first ++ second) =
      ((serve q first).1 ++ (serve (serve q first).2 second).1,
        (serve (serve q first).2 second).2) := by
  induction first generalizing q with
  | nil => rfl
  | cons c first ih => simp only [List.cons_append, serve_cons, ih]

theorem serve_ofBytes (held : List UInt8) {calls : List BufferCall}
    (hc : .stream .close ∉ calls) :
    ∃ left, (serve (.ofBytes held) calls).2 = .ofBytes left ∧
      (serve (.ofBytes held) calls).1.flatMap taken ++ left =
        held ++ calls.flatMap BufferCall.written ∧
      ∀ reply ∈ (serve (.ofBytes held) calls).1, reply.error? = none := by
  induction calls generalizing held with
  | nil => exact ⟨held, rfl, by simp [serve, answers], by simp [serve, answers]⟩
  | cons c calls ih =>
    rw [List.mem_cons, not_or] at hc
    obtain ⟨middle, hm, hbytes, hok⟩ := BufferCall.on_ofBytes held (Ne.symm hc.1)
    obtain ⟨left, hl, hrest, hall⟩ := ih middle hc.2
    simp only [serve_cons, hm, List.flatMap_cons]
    refine ⟨left, hl, ?_, List.forall_mem_cons.mpr ⟨hok, hall⟩⟩
    rw [List.append_assoc, hrest, ← List.append_assoc, hbytes, List.append_assoc]

theorem serve_closed (calls : List BufferCall) :
    (serve .closed calls).2 = .closed ∧
      ∀ reply ∈ (serve .closed calls).1, reply.error? ≠ some .interrupted := by
  induction calls with
  | nil => exact ⟨rfl, by simp [serve, answers]⟩
  | cons c calls ih =>
    obtain ⟨hclosed, herror⟩ := c.on_closed
    rw [serve_cons, hclosed]
    refine ⟨ih.1, List.forall_mem_cons.mpr ⟨?_, ih.2⟩⟩
    rw [herror]
    split <;> simp

/-- Behind a close a buffer stays closed. -/
theorem serve_ofBytes_of_close (held : List UInt8) {calls : List BufferCall}
    (hc : .stream .close ∈ calls) :
    (serve (.ofBytes held) calls).2 = .closed ∧
      ∀ reply ∈ (serve (.ofBytes held) calls).1, reply.error? ≠ some .interrupted := by
  obtain ⟨first, second, rfl, hfirst⟩ := List.eq_append_cons_of_mem hc
  obtain ⟨left, hl, -, hok⟩ := serve_ofBytes held hfirst
  obtain ⟨hclosed, herror⟩ := serve_closed second
  rw [serve_append, hl]
  refine ⟨hclosed, List.forall_mem_append.mpr ⟨fun reply hr => ?_, ?_⟩⟩
  · simp [hok reply hr]
  · exact List.forall_mem_cons.mpr ⟨by simp [BufferCall.on, StreamCall.on, Reply.error?], herror⟩

/-- However a new buffer, or one with any contents, has been written to, read and taken: no call is
ever told of an interrupt. While the buffer is open every call succeeds, the bytes given out and
those that are left are its first contents and all that was written, and taking it gives all that is
left, however long that is, and leaves nothing. Once it has been closed, taking, reading and writing
fail for that. -/
theorem takeAll_loses_nothing {start : ByteQueue}
    (hstart : start = .empty ∨ ∃ contents, start = .ofBytes contents) (calls : List BufferCall) :
    (∀ reply ∈ (serve start calls).1, reply.error? ≠ some .interrupted) ∧
    (.stream .close ∉ calls →
      (∀ reply ∈ (serve start calls).1, reply.error? = none) ∧
      (serve start calls).1.flatMap taken ++ (serve start calls).2.bytes =
        start.bytes ++ calls.flatMap BufferCall.written ∧
      BufferCall.takeAll.on (serve start calls).2 =
        (.taken (.ok (serve start calls).2.bytes), .empty)) ∧
    (.stream .close ∈ calls → ∀ c, c ≠ .stream .close →
      (BufferCall.on c (serve start calls).2).1.error? = some .closed) := by
  obtain ⟨held, rfl⟩ : ∃ held, start = .ofBytes held := hstart.elim (fun h => ⟨[], h⟩) id
  by_cases hc : BufferCall.stream .close ∈ calls
  · obtain ⟨hclosed, herror⟩ := serve_ofBytes_of_close held hc
    refine ⟨herror, fun hn => absurd hc hn, fun _ c hne => ?_⟩
    rw [hclosed, c.on_closed.2, if_neg hne]
  · obtain ⟨left, hl, hbytes, hok⟩ := serve_ofBytes held hc
    refine ⟨fun reply hr => by simp [hok reply hr], fun _ => ⟨hok, ?_, ?_⟩, fun hn => absurd hn hc⟩
    · rw [hl]
      exact hbytes
    · rw [hl, BufferCall.on, takeAll_ofBytes]
      rfl

/-- Two full chunks, less a byte that was read before, and two more bytes. -/
theorem takeAll_loses_nothing_twoChunks :
    let rest : List UInt8 := List.replicate 2047 7
    let start := ofBytes (7 :: rest)
    let calls : List BufferCall := [.stream (.write [1, 2]), .stream (.read 1), .stream (.read 0)]
    (start = .empty ∨ ∃ contents, start = .ofBytes contents) ∧ .stream .close ∉ calls ∧
      BufferCall.takeAll.on (serve start calls).2 = (.taken (.ok (rest ++ [1, 2])), .empty) ∧
      .stream .close ∈ calls ++ [.stream .close] ∧
      (BufferCall.takeAll.on (serve start (calls ++ [.stream .close])).2).1.error? =
        some .closed := by
  intro rest start calls
  have hstart : start = .empty ∨ ∃ contents, start = .ofBytes contents := .inr ⟨_, rfl⟩
  have hopen : BufferCall.stream .close ∉ calls := by simp [calls]
  have hclosed : BufferCall.stream .close ∈ calls ++ [.stream .close] := by simp
  have hheld : (serve start calls).2.bytes = rest ++ [1, 2] := rfl
  refine ⟨hstart, hopen, ?_, hclosed, ?_⟩
  · rw [((takeAll_loses_nothing hstart calls).2.1 hopen).2.2, hheld]
  · exact (takeAll_loses_nothing hstart _).2.2 hclosed .takeAll (by simp)

end TerminalShell.Command
