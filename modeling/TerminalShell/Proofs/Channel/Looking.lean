import Mathlib.Logic.Relation
import TerminalShell.Proofs.Channel.LineReading

/-!
A reader's way to a line, one look at a time. Between two looks others may do what they like with
the source; without them the looks add up to the reader's call.
-/
namespace TerminalShell.Channel.LineReader

variable {σ : Type} {source : ByteSource σ} {r r' : LineReader} {s s' : σ}

/-- Takes the next line off the pending bytes, or reads once if they hold none. There is no outcome
as long as the reader has to look again. -/
def look (source : ByteSource σ) (r : LineReader) (s : σ) : Option Outcome × LineReader × σ :=
  match r.takeLine? with
  | some (text, r) => (some (.line text), r, s)
  | none =>
    ((r.absorb (source.read r.chunkSize s).1).1, (r.absorb (source.read r.chunkSize s).1).2,
      (source.read r.chunkSize s).2)

theorem next_of_look_eq_some {outcome : Outcome} (h : look source r s = (some outcome, r', s')) :
    next source r s = (outcome, r', s') := by
  unfold look at h
  split at h
  next text r'' ht =>
    cases h
    exact next_of_takeLine? source _ ht
  next ht =>
    rw [Prod.mk.injEq, Prod.mk.injEq] at h
    obtain ⟨ho, hr, rfl⟩ := h
    exact next_of_outcome source s (takeLine?_eq_none_iff.mp ht) (Prod.ext ho hr)

theorem next_of_look_eq_none (h : look source r s = (none, r', s')) :
    next source r s = next source r' s' := by
  unfold look at h
  split at h
  next => cases h
  next ht =>
    rw [Prod.mk.injEq, Prod.mk.injEq] at h
    obtain ⟨ho, hr, rfl⟩ := h
    exact next_of_more source s (takeLine?_eq_none_iff.mp ht) (Prod.ext ho hr)

theorem remaining_lt_of_look_eq_none (h : look source r s = (none, r', s')) :
    source.remaining s' < source.remaining s := by
  unfold look at h
  split at h
  next => cases h
  next ht =>
    rw [Prod.mk.injEq, Prod.mk.injEq] at h
    obtain ⟨ho, -, rfl⟩ := h
    have hsize := size_pos_of_absorb (Prod.ext ho rfl)
    have := source.size_add_remaining_le r.chunkSize s
    omega

/-- A reader's call is looks without an outcome and a last one with its own. -/
theorem exists_looks_of_next (source : ByteSource σ) (r : LineReader) (s : σ) :
    ∃ last, Relation.ReflTransGen (fun before after : LineReader × σ =>
        look source before.1 before.2 = (none, after)) (r, s) last ∧
      look source last.1 last.2 = (some (next source r s).1, (next source r s).2) := by
  induction hn : source.remaining s using Nat.strongRecOn generalizing r s with
  | _ n ih =>
    rcases hl : look source r s with ⟨_ | outcome, r', s'⟩
    · obtain ⟨last, hlooks, hlast⟩ := ih _ (hn ▸ remaining_lt_of_look_eq_none hl) r' s' rfl
      rw [next_of_look_eq_none hl]
      exact ⟨last, .head hl hlooks, hlast⟩
    · rw [next_of_look_eq_some hl]
      exact ⟨(r, s), .refl, hl⟩

/-- What a look at a queue whose reader waits can come to. -/
inductive Looks (r : LineReader) : ByteQueue → Option Outcome × LineReader × ByteQueue → Prop where
  | line {q : ByteQueue} {line rest : List UInt8} (notMem : 10 ∉ line)
      (pending_eq : r.pending = line ++ 10 :: rest) :
    Looks r q (some (.line (Text.Utf8.decodeLenient (Text.dropReturn line))),
      { r with pending := rest }, q)
  | more {bytes taken left : List UInt8} {interrupted : Bool} (notMem : 10 ∉ r.pending)
      (taken_ne : taken ≠ []) (bytes_eq : bytes = taken ++ left) :
    Looks r (.opened bytes interrupted) (none, { r with pending := r.pending ++ taken },
      .opened left interrupted)
  | interrupted (notMem : 10 ∉ r.pending) :
    Looks r (.opened [] true) (some (.failed .interrupted), { r with pending := [] },
      .opened [] false)
  | waiting (notMem : 10 ∉ r.pending) :
    Looks r (.opened [] false) (some .waiting, r, .opened [] false)
  | flushed (notMem : 10 ∉ r.pending) (pending_ne : r.pending ≠ []) :
    Looks r .closed (some (.line (Text.Utf8.decodeLenient r.pending)), { r with pending := [] },
      .closed)
  | closed (pending_eq : r.pending = []) : Looks r .closed (some (.failed .closed), r, .closed)

theorem look_looks (r : LineReader) (q : ByteQueue) : Looks r q (look ByteQueue.awaited r q) := by
  unfold look
  split
  next text r' ht =>
    obtain ⟨line, rest, hline, hpending, rfl, rfl⟩ := takeLine?_eq_some ht
    exact .line hline hpending
  next ht =>
    have hm := takeLine?_eq_none_iff.mp ht
    cases q with
    | closed =>
      have hread : ByteQueue.awaited.read r.chunkSize .closed = (.failed .closed, .closed) :=
        ByteQueue.awaited_reports _ _ (by simp)
      rw [hread]
      by_cases hp : r.pending = []
      · simpa [absorb, hp] using Looks.closed hp
      · simpa [absorb, hp] using Looks.flushed hm hp
    | opened bytes interrupted =>
      by_cases hb : bytes = []
      · subst hb
        cases interrupted with
        | true =>
          have hread : ByteQueue.awaited.read r.chunkSize (.opened [] true) =
              (.failed .interrupted, .opened [] false) :=
            ByteQueue.awaited_reports _ _ (by simp)
          rw [hread]
          exact .interrupted hm
        | false =>
          rw [ByteQueue.awaited_read_empty r.chunkSize_pos]
          exact .waiting hm
      · have htake := r.take_chunkSize_ne_nil hb
        rw [ByteQueue.awaited_reports.read_opened hb]
        simpa [absorb, htake] using
          Looks.more hm htake (List.take_append_drop r.chunkSize bytes).symm

/-- What a reader and its queue hold, a byte of the queue counting twice. -/
def backlog (r : LineReader) (q : ByteQueue) : Nat :=
  r.pending.length + 2 * q.bytes.length + q.isInterrupted.toNat

namespace Looks

variable {q q' : ByteQueue} {outcome : Option Outcome}

theorem eq_waiting_iff (h : Looks r q (outcome, r', q')) :
    outcome = some .waiting ↔ 10 ∉ r.pending ∧ q = .opened [] false := by
  cases h with
  | line _ hp => simp [hp]
  | more _ hne heq => simp [heq, hne]
  | interrupted => simp
  | waiting hm => simp [hm]
  | flushed => simp
  | closed => simp

theorem emptied (h : Looks r q (outcome, r', q')) :
    { r' with pending := [] } = { r with pending := [] } := by
  cases h <;> rfl

theorem ne_incomplete (h : Looks r q (outcome, r', q')) : outcome ≠ some .incomplete := by
  cases h <;> simp

theorem eq_of_waiting (h : Looks r q (some .waiting, r', q')) : r' = r ∧ q' = q := by
  cases h with
  | waiting => exact ⟨rfl, rfl⟩

theorem eq_of_closed (h : Looks r q (some (.failed .closed), r', q')) : r' = r ∧ q' = q := by
  cases h with
  | closed => exact ⟨rfl, rfl⟩

/-- Each look uses up something, unless it waits or finds the queue closed. -/
theorem backlog_lt (h : Looks r q (outcome, r', q')) (hw : outcome ≠ some .waiting)
    (hc : outcome ≠ some (.failed .closed)) : r'.backlog q' < r.backlog q := by
  cases h with
  | line _ hp =>
    simp only [backlog, hp, List.length_append, List.length_cons]
    omega
  | more _ hne heq =>
    have := List.length_pos_iff.mpr hne
    simp only [backlog, heq, ByteQueue.bytes, ByteQueue.isInterrupted, List.length_append]
    omega
  | interrupted => simp [backlog, ByteQueue.bytes, ByteQueue.isInterrupted]
  | waiting => exact absurd rfl hw
  | flushed _ hne =>
    have := List.length_pos_iff.mpr hne
    simpa [backlog, ByteQueue.bytes, ByteQueue.isInterrupted] using this
  | closed => exact absurd rfl hc

end Looks

end TerminalShell.Channel.LineReader
