import Mathlib.Data.Fin.SuccPred
import Mathlib.Logic.Function.Basic
import TerminalShell.Proofs.Channel.QueueConservation
import TerminalShell.Proofs.Command.Wiring

/-!
Pipes do not leak. Wired stages that read, write and close their streams in any order get the
answers of a row of queues that have nothing to do with each other: stage `i` has queue `i` as its
input and queue `i + 1` as its output.
-/
namespace TerminalShell.Command
open TerminalShell.Channel TerminalShell.Channel.ByteQueue

inductive StreamCall where
  | read (n : Nat)
  | write (bytes : List UInt8)
  | close
  deriving DecidableEq, Repr

namespace StreamCall

def on (c : StreamCall) (q : ByteQueue) : Reply × ByteQueue :=
  match c with
  | .read n => (.taken (q.read n).1, (q.read n).2)
  | .write bytes => (.wrote (q.write bytes).1, (q.write bytes).2)
  | .close => (.done, q.close)

end StreamCall

/-- What a stream of a pipeline of `n` stages can be reached by: as the input or output of a stage,
or from outside. -/
inductive Handle (n : Nat) where
  | input (stage : Fin n)
  | output (stage : Fin n)
  | source
  | sink
  deriving DecidableEq, Repr

namespace Handle

variable {n : Nat}

/-- The number of the link that is reached. -/
def link : Handle n → Fin (n + 1)
  | .input i => i.castSucc
  | .output i => i.succ
  | .source => 0
  | .sink => Fin.last n

def stream (stages : List Stage) (ends : Ends) : Handle stages.length → StreamId
  | .input i => stages[i].input
  | .output i => stages[i].output
  | .source => ends.input
  | .sink => ends.output

end Handle

structure Access (n : Nat) where
  handle : Handle n
  call : StreamCall
  deriving DecidableEq, Repr

/-- Steps in a row: their replies, and the state that they leave. -/
def answers {α ρ σ : Type} (step : σ → α → ρ × σ) (s : σ) : List α → List ρ × σ
  | [] => ([], s)
  | a :: rest => ((step s a).1 :: (answers step (step s a).2 rest).1,
    (answers step (step s a).2 rest).2)

def Streams.access (stages : List Stage) (ends : Ends) (s : Streams) (a : Access stages.length) :
    Reply × Streams := s.on (a.handle.stream stages ends) a.call.on

/-- Queues that have nothing to do with each other. -/
abbrev Row (n : Nat) := Fin (n + 1) → ByteQueue

namespace Row

variable {n : Nat}

def access (row : Row n) (a : Access n) : Reply × Row n :=
  ((a.call.on (row a.handle.link)).1,
    Function.update row a.handle.link (a.call.on (row a.handle.link)).2)

/-- Empty queues between two given ones. -/
def between (first last : ByteQueue) : Row n := fun k =>
  if k.val = 0 then first else if k.val = n then last else .empty

end Row

section Queue

/-! One queue by itself. -/

variable (q : ByteQueue) (calls : List StreamCall)

def StreamCall.written : StreamCall → List UInt8
  | .write bytes => bytes
  | _ => []

def taken : Reply → List UInt8
  | .taken (.ok bytes) => bytes
  | _ => []

def answer (q : ByteQueue) (calls : List StreamCall) : List Reply × ByteQueue :=
  answers (fun q c => c.on q) q calls

theorem answer_cons (c : StreamCall) :
    answer q (c :: calls) =
      ((c.on q).1 :: (answer (c.on q).2 calls).1, (answer (c.on q).2 calls).2) := rfl

/-- A call on an open queue that does not close it: what is taken and what is left are what was
there and what is written. -/
theorem StreamCall.on_opened {q : ByteQueue} {c : StreamCall} (hq : q.isClosed = false)
    (hc : c ≠ .close) :
    (c.on q).2.isClosed = false ∧ taken (c.on q).1 ++ (c.on q).2.bytes = q.bytes ++ c.written := by
  cases q with
  | closed => contradiction
  | opened bytes interrupted =>
    cases c with
    | read n =>
      rcases read_opened n bytes interrupted with hr | ⟨hr, rfl⟩ <;>
        simp [on, hr, isClosed, taken, written, ByteQueue.bytes]
    | write new => simp [on, ByteQueue.write, isClosed, taken, written, ByteQueue.bytes]
    | close => contradiction

theorem StreamCall.on_closed (c : StreamCall) :
    (c.on .closed).2 = .closed ∧ taken (c.on .closed).1 = [] := by
  cases c <;> exact ⟨rfl, rfl⟩

theorem answer_closed :
    (answer .closed calls).2 = .closed ∧ (answer .closed calls).1.flatMap taken = [] := by
  induction calls with
  | nil => exact ⟨rfl, rfl⟩
  | cons c calls ih =>
    obtain ⟨hq, ht⟩ := c.on_closed
    rw [answer_cons, hq, List.flatMap_cons, ht]
    exact ih

/-- What is taken from a queue begins what was in it and what is written to it; while nobody closes
it, the queue still holds the rest. -/
theorem answer_conserves :
    (answer q calls).1.flatMap taken <+: q.bytes ++ calls.flatMap StreamCall.written ∧
      (q.isClosed = false → .close ∉ calls →
        (answer q calls).1.flatMap taken ++ (answer q calls).2.bytes =
          q.bytes ++ calls.flatMap StreamCall.written) := by
  induction calls generalizing q with
  | nil => simp [answer, answers]
  | cons c calls ih =>
    rw [answer_cons, List.flatMap_cons, List.flatMap_cons]
    by_cases hq : q.isClosed = true
    · obtain rfl := (ByteQueue.isClosed_iff q).mp hq
      obtain ⟨hc, ht⟩ := c.on_closed
      rw [hc, ht, (answer_closed calls).2]
      exact ⟨List.nil_prefix, fun hopen => absurd hopen (by simp [isClosed])⟩
    · by_cases hc : c = .close
      · subst hc
        have ht : taken (StreamCall.close.on q).1 = [] := rfl
        have hclosed : (StreamCall.close.on q).2 = .closed := rfl
        rw [hclosed, ht, (answer_closed calls).2]
        exact ⟨List.nil_prefix, fun _ hno => absurd List.mem_cons_self hno⟩
      · obtain ⟨hopen, hstep⟩ := StreamCall.on_opened (Bool.not_eq_true _ ▸ hq) hc
        obtain ⟨htaken, hrest⟩ := ih (c.on q).2
        rw [← List.append_assoc q.bytes, ← hstep, List.append_assoc, List.append_assoc]
        refine ⟨(List.prefix_append_right_inj _).mpr htaken, fun _ hno => ?_⟩
        rw [hrest hopen fun hm => hno (List.mem_cons_of_mem _ hm)]

theorem isClosed_answer :
    (answer q calls).2.isClosed = true ↔ q.isClosed = true ∨ .close ∈ calls := by
  induction calls generalizing q with
  | nil => simp [answer, answers]
  | cons c calls ih =>
    rw [answer_cons, ih, List.mem_cons]
    cases c with
    | read n => simp [StreamCall.on]
    | write bytes => simp [StreamCall.on]
    | close => simp [StreamCall.on, close, isClosed]

end Queue

section Row

variable {n : Nat} (k : Fin (n + 1)) (accesses : List (Access n))

/-- The calls that reach link number `k`. -/
def callsAt : List StreamCall := (accesses.filter (·.handle.link == k)).map Access.call

def repliesAt (replies : List Reply) : List Reply :=
  ((accesses.zip replies).filter (·.1.handle.link == k)).map Prod.snd

/-- Each queue of a row answers as if it were the only one. -/
theorem Row.answers_at (row : Row n) :
    repliesAt k accesses (answers Row.access row accesses).1 =
        (answer (row k) (callsAt k accesses)).1 ∧
      (answers Row.access row accesses).2 k = (answer (row k) (callsAt k accesses)).2 := by
  induction accesses generalizing row with
  | nil => exact ⟨rfl, rfl⟩
  | cons a accesses ih =>
    obtain ⟨hreplies, hlast⟩ := ih (Row.access row a).2
    unfold repliesAt callsAt at *
    by_cases hk : a.handle.link = k
    · have hrow : (Row.access row a).2 k = (a.call.on (row k)).2 := by
        subst hk
        exact Function.update_self ..
      have hreply : (Row.access row a).1 = (a.call.on (row k)).1 := by
        subst hk
        rfl
      rw [hrow] at hreplies hlast
      rw [List.filter_cons_of_pos (by simpa using hk), List.map_cons, answer_cons]
      simp only [answers, List.zip_cons_cons]
      rw [List.filter_cons_of_pos (by simpa using hk), List.map_cons, hreplies, hreply]
      exact ⟨rfl, hlast⟩
    · have hrow : (Row.access row a).2 k = row k := Function.update_of_ne (Ne.symm hk) ..
      rw [hrow] at hreplies hlast
      rw [List.filter_cons_of_neg (by simpa using hk)]
      simp only [answers, List.zip_cons_cons]
      rw [List.filter_cons_of_neg (by simpa using hk)]
      exact ⟨hreplies, hlast⟩

end Row

section Store

variable {stages : List Stage} {ends : Ends} {s : Streams}

/-- A store in which the streams of a pipeline are there, and are one stream just where they are one
link. -/
structure Streams.Holds (s : Streams) (stages : List Stage) (ends : Ends) : Prop where
  has : ∀ handle : Handle stages.length, s.Has (handle.stream stages ends)
  stream_eq_iff : ∀ a b : Handle stages.length,
    a.stream stages ends = b.stream stages ends ↔ a.link = b.link

theorem Streams.get_access_of_ne {a : Access stages.length} {id : StreamId}
    (h : id ≠ a.handle.stream stages ends) : (s.access stages ends a).2.get id = s.get id :=
  get_set_of_ne h _

/-- The streams of a pipeline answer as a row of queues does, and all other streams stay as they
are. -/
theorem Streams.Holds.answers (h : s.Holds stages ends) {row : Row stages.length}
    (hrow : ∀ handle : Handle stages.length, s.get (handle.stream stages ends) = row handle.link)
    (accesses : List (Access stages.length)) :
    (answers (access stages ends) s accesses).1 = (answers Row.access row accesses).1 ∧
      (∀ handle : Handle stages.length,
        (answers (access stages ends) s accesses).2.get (handle.stream stages ends) =
          (answers Row.access row accesses).2 handle.link) ∧
      (∀ id, (∀ handle : Handle stages.length, id ≠ handle.stream stages ends) →
        (answers (access stages ends) s accesses).2.get id = s.get id) ∧
      (answers (access stages ends) s accesses).2.queues.size = s.queues.size := by
  induction accesses generalizing s row with
  | nil => exact ⟨rfl, hrow, fun _ _ => rfl, rfl⟩
  | cons a accesses ih =>
    have hsize : (s.access stages ends a).2.queues.size = s.queues.size := size_set _
    have hholds : (s.access stages ends a).2.Holds stages ends :=
      ⟨fun handle => Nat.lt_of_lt_of_eq (h.has handle) hsize.symm, h.stream_eq_iff⟩
    have hreply : (s.access stages ends a).1 = (Row.access row a).1 := by
      rw [access, on, hrow, Row.access]
    have hnext (handle : Handle stages.length) :
        (s.access stages ends a).2.get (handle.stream stages ends) =
          (Row.access row a).2 handle.link := by
      by_cases hl : handle.link = a.handle.link
      · rw [(h.stream_eq_iff handle a.handle).mpr hl, hl]
        refine (get_set_self (h.has a.handle) _).trans ?_
        rw [hrow]
        exact (Function.update_self a.handle.link _ row).symm
      · rw [get_access_of_ne (mt (h.stream_eq_iff handle a.handle).mp hl), hrow]
        exact (Function.update_of_ne hl _ row).symm
    obtain ⟨hreplies, hlast, hframe, hgrown⟩ := ih hholds hnext
    simp only [TerminalShell.Command.answers]
    refine ⟨?_, hlast, fun id hid => ?_, hgrown.trans hsize⟩
    · rw [hreply, hreplies]
    · exact (hframe id hid).trans (get_access_of_ne (hid a.handle))

end Store

section Wired

variable {segs : List (List String)} (hne : segs ≠ []) {ends : Ends} {s : Streams}
include hne

theorem stream_wire (handle : Handle (wire segs ends.input ends.output s).1.length) :
    handle.stream (wire segs ends.input ends.output s).1 ends =
      linkId ends s.queues.size segs.length handle.link := by
  cases handle with
  | input i => exact (getElem_wire i.isLt).1
  | output i => exact (getElem_wire i.isLt).2
  | source => rfl
  | sink => simp [Handle.stream, Handle.link, linkId, length_wire, hne]

omit hne in
theorem link_le (handle : Handle (wire segs ends.input ends.output s).1.length) :
    handle.link.val ≤ segs.length :=
  Nat.le_of_lt_succ (Nat.lt_of_lt_of_eq handle.link.isLt (congrArg Nat.succ (length_wire ..)))

theorem Streams.Connects.holds (h : s.Connects ends) :
    (wire segs ends.input ends.output s).2.Holds (wire segs ends.input ends.output s).1 ends where
  has handle := by
    rw [stream_wire hne, streams_wire hne]
    exact h.has_linkId (link_le handle)
  stream_eq_iff a b := by
    rw [stream_wire hne, stream_wire hne]
    exact ⟨fun he => Fin.ext (h.linkId_inj he), fun he => by rw [he]⟩

theorem Streams.Connects.get_stream (h : s.Connects ends)
    (handle : Handle (wire segs ends.input ends.output s).1.length) :
    (wire segs ends.input ends.output s).2.get
        (handle.stream (wire segs ends.input ends.output s).1 ends) =
      Row.between (s.get ends.input) (s.get ends.output) handle.link := by
  rw [stream_wire hne, streams_wire hne, h.get_linkId (link_le handle)]
  simp only [Row.between, length_wire]

end Wired

/-- Over every sequence of calls on the streams of a wired pipeline: each is answered as by a row of
queues apart from each other, where stage `i` has queue `i` as its input and queue `i + 1` as its
output. So what is taken from a link is what has been written to it, once and in order; a close of
one link closes that link and no other; all other streams stay as they are. The links are new, and
so are those of any pipeline that is wired later. -/
theorem pipes_isolated {segs : List (List String)} (hne : segs ≠ []) {ends : Ends} {s : Streams}
    (h : s.Connects ends) :
    let stages := (wire segs ends.input ends.output s).1
    let wired := (wire segs ends.input ends.output s).2
    let row : Row stages.length := Row.between (s.get ends.input) (s.get ends.output)
    stages.map Stage.words = segs ∧
    (∀ a b : Handle stages.length, a.stream stages ends = b.stream stages ends ↔ a.link = b.link) ∧
    (∀ accesses : List (Access stages.length),
      let real := answers (Streams.access stages ends) wired accesses
      let apart := answers Row.access row accesses
      real.1 = apart.1 ∧
      (∀ handle : Handle stages.length,
        let held := real.2.get (handle.stream stages ends)
        let calls := callsAt handle.link accesses
        let written := (row handle.link).bytes ++ calls.flatMap StreamCall.written
        let got := (repliesAt handle.link accesses real.1).flatMap taken
        held = apart.2 handle.link ∧
        got <+: written ∧
        ((row handle.link).isClosed = false → .close ∉ calls → got ++ held.bytes = written) ∧
        (held.isClosed = true ↔ (row handle.link).isClosed = true ∨ .close ∈ calls)) ∧
      (∀ id, (∀ handle : Handle stages.length, id ≠ handle.stream stages ends) →
        real.2.get id = wired.get id) ∧
      real.2.queues.size = wired.queues.size) ∧
    (links stages).Nodup ∧
    (∀ id ∈ links stages, ¬ s.Has id ∧ wired.Has id ∧ wired.get id = .empty) ∧
    (∀ id, s.Has id → wired.get id = s.get id) ∧
    ∀ later : Streams, wired.queues.size ≤ later.queues.size →
      ∀ (more : List (List String)) (outer : Ends),
        (links stages).Disjoint (links (wire more outer.input outer.output later).1) := by
  intro stages wired row
  have hwired : wired = s.extend (segs.length - 1) := streams_wire hne ..
  have hsize : wired.queues.size = s.queues.size + (segs.length - 1) := by
    rw [hwired, Streams.size_extend]
  refine ⟨wire_words .., (h.holds hne).stream_eq_iff, fun accesses => ?_, nodup_links_wire .., ?_,
    ?_, ?_⟩
  · intro real apart
    obtain ⟨hreplies, hheld, hframe, hgrown⟩ :=
      (h.holds hne).answers (h.get_stream hne) accesses
    refine ⟨hreplies, fun handle => ?_, hframe, hgrown⟩
    intro held calls written got
    obtain ⟨hat, hlast⟩ := Row.answers_at handle.link accesses row
    have hgot : got = (answer (row handle.link) calls).1.flatMap taken := by
      rw [← hat, ← hreplies]
    have hlast : held = (answer (row handle.link) calls).2 := (hheld handle).trans hlast
    obtain ⟨htaken, hrest⟩ := answer_conserves (row handle.link) calls
    rw [hgot, hlast]
    exact ⟨hlast ▸ hheld handle, htaken, hrest, isClosed_answer ..⟩
  · intro id hid
    obtain ⟨hle, hlt⟩ := mem_links_wire.mp hid
    refine ⟨Nat.not_lt.mpr hle, Nat.lt_of_lt_of_eq hlt hsize.symm, ?_⟩
    rw [hwired]
    exact Streams.get_extend_of_new hle hlt
  · intro id hid
    rw [hwired]
    exact Streams.get_extend_of_has hid _
  · intro later hlater more outer id hid hid'
    obtain ⟨-, hlt⟩ := mem_links_wire.mp hid
    obtain ⟨hle, -⟩ := mem_links_wire.mp hid'
    omega

def twoStreams : Streams := ⟨#[.ofBytes [7], .empty]⟩

def threeStages : List Stage := (wire [["a"], ["b"], ["c"]] ⟨0⟩ ⟨1⟩ twoStreams).1

/-- The first stage writes and closes, the second reads too late what was left, the third writes. -/
def threeStagesAccesses : List (Access threeStages.length) :=
  [⟨.output ⟨0, by decide⟩, .write [1, 2]⟩, ⟨.input ⟨1, by decide⟩, .read 1⟩,
    ⟨.input ⟨0, by decide⟩, .read 4⟩, ⟨.output ⟨0, by decide⟩, .close⟩,
    ⟨.input ⟨1, by decide⟩, .read 1⟩, ⟨.output ⟨1, by decide⟩, .write [3]⟩,
    ⟨.sink, .read 4⟩, ⟨.output ⟨2, by decide⟩, .write [4]⟩, ⟨.sink, .read 4⟩]

theorem pipes_isolated_threeStages :
    twoStreams.Connects ⟨⟨0⟩, ⟨1⟩⟩ ∧
    (answers (Streams.access threeStages ⟨⟨0⟩, ⟨1⟩⟩)
        (wire [["a"], ["b"], ["c"]] ⟨0⟩ ⟨1⟩ twoStreams).2 threeStagesAccesses).1 =
      [.wrote (.ok 2), .taken (.ok [1]), .taken (.ok [7]), .done, .taken (.error .closed),
        .wrote (.ok 1), .taken (.ok []), .wrote (.ok 1), .taken (.ok [4])] := by
  have h : twoStreams.Connects ⟨⟨0⟩, ⟨1⟩⟩ :=
    ⟨by unfold Streams.Has; decide, by unfold Streams.Has; decide, by decide⟩
  have hall := @pipes_isolated [["a"], ["b"], ["c"]] (by simp) _ _ h
  refine ⟨h, (hall.2.2.1 threeStagesAccesses).1.trans ?_⟩
  rfl

end TerminalShell.Command
