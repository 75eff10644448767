import Mathlib.Logic.Basic
import TerminalShell.Proofs.Channel.QueueRun

/-!
Reads that wait, look by look. Each look takes what a plain read takes, and between two looks others
may do what they like with the queue. A look after which the reader goes on waiting has taken
nothing, so that the whole call is one plain read, at the state that the last look finds.
-/
namespace TerminalShell.Channel.ByteQueue

/-- Something to report: the end, an interrupt that no byte comes before, or a byte. -/
def Readable (q : ByteQueue) : Prop :=
  q.isClosed = true ∨ (q.isInterrupted = true ∧ q.bytes = []) ∨ q.bytes ≠ []

/-- What one look takes, and the result to return with. There is none for a reader that wants bytes
and gets none. -/
def look (n : Nat) (q : ByteQueue) : Option (Except ChannelError (List UInt8)) × ByteQueue :=
  match q.read n with
  | (.ok [], left) => (if n = 0 then some (.ok []) else none, left)
  | (result, left) => (some result, left)

/-- A read of up to `n` bytes, from its call to its return, and what others do with the queue in
this time. A reader that does not return after a look sleeps and looks again; if its patience ends
in a sleep, it looks a last time and returns whatever it gets. -/
inductive ReadAmong (n : Nat) :
    Patience → ByteQueue → List Event → Except ChannelError (List UInt8) → ByteQueue → Prop where
  | polled {q seen last : ByteQueue} {before after : List Event} (hb : Run q before seen)
      (ha : Run (seen.read n).2 after last) :
    ReadAmong n .none q (before ++ after) (seen.read n).1 last
  | returned {patience : Patience} {q seen left last : ByteQueue} {before after : List Event}
      {result : Except ChannelError (List UInt8)} (hp : patience ≠ .none) (hb : Run q before seen)
      (hl : seen.look n = (some result, left)) (ha : Run left after last) :
    ReadAmong n patience q (before ++ after) result last
  | slept {patience : Patience} {q seen left last : ByteQueue} {before others : List Event}
      {result : Except ChannelError (List UInt8)} (hp : patience ≠ .none) (hb : Run q before seen)
      (hl : seen.look n = (none, left)) (rest : ReadAmong n patience left others result last) :
    ReadAmong n patience q (before ++ others) result last
  | expired {q seen left late last : ByteQueue} {before meanwhile after : List Event}
      (hb : Run q before seen) (hl : seen.look n = (none, left)) (hm : Run left meanwhile late)
      (ha : Run (late.read n).2 after last) :
    ReadAmong n .limited q (before ++ (meanwhile ++ after)) (late.read n).1 last

variable {n : Nat} {patience : Patience} {q left last : ByteQueue}
  {result : Except ChannelError (List UInt8)}

theorem not_readable_iff : ¬ q.Readable ↔ q = .opened [] false := by
  cases q with
  | closed => simp [Readable, isClosed]
  | opened bytes interrupted =>
    cases bytes <;> simp [Readable, isClosed, isInterrupted, ByteQueue.bytes]

/-- A reader that wants bytes comes back without any, and without an error, exactly when there is
nothing to report. -/
theorem read_eq_nil_iff (hn : n ≠ 0) : (q.read n).1 = .ok [] ↔ ¬ q.Readable := by
  rw [not_readable_iff]
  cases q with
  | closed => simp [read]
  | opened bytes interrupted => cases bytes <;> cases interrupted <;> simp [read, hn]

theorem read_of_not_readable (n : Nat) (hq : ¬ q.Readable) : q.read n = (.ok [], q) := by
  rw [not_readable_iff.mp hq]
  simp [read]

/-- A look without a result leaves the queue as it is. -/
theorem look_of_not_readable (hn : n ≠ 0) (hq : ¬ q.Readable) : q.look n = (none, q) := by
  simp [look, read_of_not_readable n hq, hn]

theorem look_of_readable (h : q.Readable ∨ n = 0) :
    q.look n = (some (q.read n).1, (q.read n).2) := by
  unfold look
  split
  next after hr =>
    have hn : n = 0 :=
      Decidable.byContradiction fun hn =>
        (read_eq_nil_iff hn).mp (by rw [hr]) (h.resolve_right hn)
    rw [hr, if_pos hn]
  next hr => rw [hr]

theorem look_eq_none_iff : q.look n = (none, left) ↔ n ≠ 0 ∧ ¬ q.Readable ∧ left = q := by
  by_cases h : q.Readable ∨ n = 0
  · simp only [look_of_readable h, Prod.mk.injEq, reduceCtorEq, false_and, false_iff]
    rintro ⟨hn, hq, -⟩
    exact h.elim hq hn
  · obtain ⟨hq, hn⟩ := not_or.mp h
    simp [look_of_not_readable hn hq, hn, hq, eq_comm]

theorem look_eq_some_iff :
    q.look n = (some result, left) ↔ q.read n = (result, left) ∧ (q.Readable ∨ n = 0) := by
  by_cases h : q.Readable ∨ n = 0
  · simp [look_of_readable h, h, Prod.ext_iff]
  · obtain ⟨hq, hn⟩ := not_or.mp h
    simp [look_of_not_readable hn hq, h]

theorem readBlocking?_eq_some_iff {answer : Except ChannelError (List UInt8) × ByteQueue} :
    q.readBlocking? n = some answer ↔ q.read n = answer ∧ (q.Readable ∨ n = 0) := by
  have hwait : n ≠ 0 ∧ q = .opened [] false ↔ ¬ (q.Readable ∨ n = 0) := by
    rw [not_or, not_readable_iff, and_comm]
  unfold readBlocking?
  split
  next h => simp [hwait.mp h]
  next h => simp [not_not.mp (mt hwait.mpr h)]

/-- A reader that nobody comes to takes what a plain read takes, unless it has to wait for ever. -/
theorem readWith?_eq_some_iff : q.readWith? n patience = some (result, left) ↔
    q.read n = (result, left) ∧ (q.Readable ∨ n = 0 ∨ patience ≠ .unlimited) := by
  cases patience with
  | none => simp [readWith?]
  | limited =>
    have ht : q.readWith? n .limited = some (q.readTimeout n) := rfl
    simp [ht, readWith?_eq_some ht]
  | unlimited => simp [readWith?, readBlocking?_eq_some_iff]

/-- A call among others is one that finds nobody else at the queue, somewhere between them. -/
theorem readAmong_iff {others : List Event} : ReadAmong n patience q others result last ↔
    ∃ older seen left newer, others = older ++ newer ∧ Run q older seen ∧
      seen.readWith? n patience = some (result, left) ∧ Run left newer last := by
  constructor
  · intro h
    -- On the looks: one without a result leaves the queue as it was, so that what others do before
    -- it and after it is one run.
    induction h with
    | polled hb ha => exact ⟨_, _, _, _, rfl, hb, rfl, ha⟩
    | returned hp hb hl ha =>
      obtain ⟨hr, hq⟩ := look_eq_some_iff.mp hl
      exact ⟨_, _, _, _, rfl, hb, readWith?_eq_some_iff.mpr ⟨hr, hq.imp_right .inl⟩, ha⟩
    | slept hp hb hl rest ih =>
      obtain ⟨-, -, rfl⟩ := look_eq_none_iff.mp hl
      obtain ⟨older, seen, left, newer, rfl, hf, hr, hs⟩ := ih
      exact ⟨_ ++ older, seen, left, newer, by rw [List.append_assoc], hb.append hf, hr, hs⟩
    | expired hb hl hm ha =>
      obtain ⟨-, -, rfl⟩ := look_eq_none_iff.mp hl
      exact ⟨_ ++ _, _, _, _, by rw [List.append_assoc], hb.append hm,
        readWith?_eq_some_iff.mpr ⟨rfl, by simp⟩, ha⟩
  · rintro ⟨older, seen, left, newer, rfl, hf, hr, hs⟩
    obtain ⟨hread, hreason⟩ := readWith?_eq_some_iff.mp hr
    have hs' : Run (seen.read n).2 newer last := by rwa [hread]
    have hresult : (seen.read n).1 = result := by rw [hread]
    by_cases hp : patience = .none
    · subst hp
      exact hresult ▸ .polled hf hs'
    by_cases hq : seen.Readable ∨ n = 0
    · exact .returned hp hf (look_eq_some_iff.mpr ⟨hread, hq⟩) hs
    · obtain ⟨hq, hn⟩ := not_or.mp hq
      cases patience with
      | none => contradiction
      | unlimited => simp [hq, hn] at hreason
      | limited =>
        exact hresult ▸ .expired hf (look_eq_none_iff.mpr ⟨hn, hq, rfl⟩) (.nil seen) hs'

/-- A call among others has its place in a run of all of them. -/
theorem ReadAmong.exists_run {others : List Event}
    (h : ReadAmong n patience q others result last) :
    ∃ older e newer, others = older ++ newer ∧ Run q (older ++ e :: newer) last ∧
      e.call = .read patience n ∧ e.reply = .taken result := by
  obtain ⟨older, seen, left, newer, ho, hf, hr, hs⟩ := readAmong_iff.mp h
  have hcall : seen.call? (.read patience n) = some (.taken result, left) := by simp [call?, hr]
  exact ⟨older, _, newer, ho, hf.append (.cons hcall hs), rfl, rfl⟩

theorem readAmong_nil_iff :
    ReadAmong n patience q [] result left ↔ q.readWith? n patience = some (result, left) := by
  rw [readAmong_iff]
  constructor
  · rintro ⟨older, seen, taken, newer, ho, hf, hr, hs⟩
    obtain ⟨rfl, rfl⟩ := List.append_eq_nil_iff.mp ho.symm
    cases hf
    cases hs
    exact hr
  · exact fun hr => ⟨[], q, left, [], rfl, .nil q, hr, .nil left⟩

/-- However others use the queue while a reader waits, it returns what one plain read takes at one
state between their calls, and has that effect and no other. There was something to report in that
state, or no byte was wanted, or the patience was limited and ended: only then does a reader that
wants bytes come back with nothing, and it leaves an open queue without bytes and without an
interrupt as it is. With the reader's call in its place all calls are one run, so that what holds of
runs holds of calls that wait. If there is something to report from the first, it makes no
difference how long the reader would have waited. -/
theorem waiting_read_is_a_read {others : List Event}
    (h : ReadAmong n patience q others result last) :
    (∃ older seen left newer, others = older ++ newer ∧
      Run q older seen ∧ seen.read n = (result, left) ∧ Run left newer last ∧
      (seen.Readable ∨ n = 0 ∨ (patience ≠ .unlimited ∧ result = .ok [])) ∧
      (n ≠ 0 → result = .ok [] →
        patience ≠ .unlimited ∧ seen = .opened [] false ∧ left = seen)) ∧
    (∃ older e newer, others = older ++ newer ∧ Run q (older ++ e :: newer) last ∧
      e.call = .read patience n ∧ e.reply = .taken result) ∧
    (q.Readable → q.readBlocking? n = some (q.read n) ∧ q.readTimeout n = q.read n ∧
      ∀ patience result left,
        ReadAmong n patience q [] result left ↔ q.read n = (result, left)) := by
  refine ⟨?_, h.exists_run, fun hq => ?_⟩
  · obtain ⟨older, seen, left, newer, ho, hf, hr, hs⟩ := readAmong_iff.mp h
    obtain ⟨hread, hreason⟩ := readWith?_eq_some_iff.mp hr
    refine ⟨older, seen, left, newer, ho, hf, hread, hs, ?_⟩
    by_cases hq : seen.Readable
    · refine ⟨.inl hq, fun hn hnil => absurd hq ?_⟩
      rw [← read_eq_nil_iff hn, hread, hnil]
    · rw [read_of_not_readable n hq, Prod.mk.injEq] at hread
      obtain ⟨rfl, rfl⟩ := hread
      exact ⟨hreason.imp_right (·.imp_right fun hp => ⟨hp, rfl⟩), fun hn _ =>
        ⟨(hreason.resolve_left hq).resolve_left hn, not_readable_iff.mp hq, rfl⟩⟩
  · have hread (patience : Patience) : q.readWith? n patience = some (q.read n) :=
      readWith?_eq_some_iff.mpr ⟨rfl, .inl hq⟩
    refine ⟨hread .unlimited, Option.some.inj (hread .limited), fun patience result left => ?_⟩
    rw [readAmong_nil_iff, hread, Option.some.injEq]

/-- A reader sleeps twice: another reader is first at the byte that comes, and the interrupt comes
when the patience is at its end. -/
theorem waiting_read_is_a_read_interrupted :
    (∃ others older seen left newer, others = older ++ newer ∧ others.map Event.call =
        [.write [7], .read .none 1, .signalInterrupt, .write [9]] ∧
      ReadAmong 4 .limited (.opened [] false) others (.error .interrupted) (.opened [9] false) ∧
      Run (.opened [] false) older seen ∧ seen.read 4 = (.error .interrupted, left) ∧
      Run left newer (.opened [9] false) ∧ seen.Readable) ∧
    (∃ others, ReadAmong 4 .unlimited (.opened [5] true) others (.ok [5]) (.opened [] true)) ∧
    (opened [5] true).Readable ∧
    (opened [5] true).readBlocking? 4 = some ((opened [5] true).read 4) := by
  have htaken : Run (.opened [] false) _ (.opened [] false) :=
    .cons (c := .write [7]) rfl (.cons (c := .read .none 1) rfl (.nil _))
  have hsignal : Run (.opened [] false) _ (.opened [] true) :=
    .cons (c := .signalInterrupt) rfl (.nil _)
  have hlater : Run (.opened [] false) _ (.opened [9] false) :=
    .cons (c := .write [9]) rfl (.nil _)
  have hlate : ReadAmong 4 .limited (.opened [] false) _ (.error .interrupted)
      (.opened [9] false) :=
    .slept (by decide) (.nil _) rfl (.expired htaken rfl hsignal hlater)
  have hfirst : ReadAmong 4 .unlimited (.opened [5] true) _ (.ok [5]) (.opened [] true) :=
    .returned (by decide) (.nil _) rfl (.nil _)
  have hq : (opened [5] true).Readable := .inr (.inr (by decide))
  obtain ⟨⟨older, seen, left, newer, ho, hf, hr, hs, hreason, -⟩, -⟩ :=
    waiting_read_is_a_read hlate
  refine ⟨⟨_, older, seen, left, newer, ho, rfl, hlate, hf, hr, hs, ?_⟩, ⟨_, hfirst⟩, hq,
    ((waiting_read_is_a_read hfirst).2.2 hq).1⟩
  simpa using hreason

end TerminalShell.Channel.ByteQueue
