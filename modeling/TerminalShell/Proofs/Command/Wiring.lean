import Mathlib.Data.List.Nodup
import TerminalShell.Command.Submission

/-!
How stages are wired. Link number `i` is what stage `i` reads from and stage `i - 1` writes to: the
first link and the last are the ends of the pipeline, those between them are new streams, each made
for two neighbours. Main statement: this holds of any list of segments, between any two ends, in any
store.
-/
namespace TerminalShell.Command
open TerminalShell.Channel

theorem StreamId.ext {a b : StreamId} (h : a.index = b.index) : a = b := by
  cases a
  exact congrArg StreamId.mk h

namespace Streams

variable {s : Streams} {id other : StreamId}

/-- A stream that has been added. -/
def Has (s : Streams) (id : StreamId) : Prop := id.index < s.queues.size

theorem get_set_self (h : s.Has id) (q : ByteQueue) : (s.set id q).get id = q := by
  have h' : id.index < s.queues.size := h
  simp [get, set, Array.getD, h']

theorem get_set_of_ne (h : other ≠ id) (q : ByteQueue) : (s.set id q).get other = s.get other := by
  have hne : id.index ≠ other.index := fun he => h (StreamId.ext he.symm)
  simp only [get, set, Array.getD_eq_getD_getElem?, Array.getElem?_setIfInBounds_ne hne]

@[simp] theorem size_set (q : ByteQueue) : (s.set id q).queues.size = s.queues.size := by
  simp [set]

/-- The store with new empty streams behind those it has. -/
def extend (s : Streams) (n : Nat) : Streams := ⟨s.queues ++ Array.replicate n .empty⟩

theorem size_extend (n : Nat) : (s.extend n).queues.size = s.queues.size + n := by
  simp [extend]

theorem has_extend_iff {n : Nat} : (s.extend n).Has id ↔ id.index < s.queues.size + n := by
  rw [Has, size_extend]

theorem get_extend_of_has (h : s.Has id) (n : Nat) : (s.extend n).get id = s.get id := by
  have h' : id.index < s.queues.size := h
  have h'' : id.index < s.queues.size + n := by omega
  simp [get, extend, Array.getD, h', h'', Array.getElem_append_left]

theorem get_extend_of_new {n : Nat} (hle : s.queues.size ≤ id.index)
    (hlt : id.index < s.queues.size + n) : (s.extend n).get id = .empty := by
  simp [get, extend, Array.getD, hlt, Array.getElem_append_right hle]

theorem add_extend (n : Nat) : (s.add .empty).2.extend n = s.extend (n + 1) := by
  simp [add, extend, Array.replicate_succ']

/-- The streams of one store are in another one too, and hold there what they held. -/
def KeptIn (s t : Streams) : Prop := ∀ id, s.Has id → t.Has id ∧ t.get id = s.get id

theorem KeptIn.refl (s : Streams) : s.KeptIn s := fun _ h => ⟨h, rfl⟩

theorem keptIn_extend (s : Streams) (n : Nat) : s.KeptIn (s.extend n) :=
  fun _ h => ⟨has_extend_iff.mpr (Nat.lt_add_right n h), get_extend_of_has h n⟩

end Streams

/-- The stream that is link number `k` of `n` stages wired in a store of the given size. -/
def linkId (ends : Ends) (size n k : Nat) : StreamId :=
  if k = 0 then ends.input else if k = n then ends.output else ⟨size + (k - 1)⟩

theorem wire_cons_cons (words next : List String) (rest : List (List String))
    (input output : StreamId) (s : Streams) :
    wire (words :: next :: rest) input output s =
      let more := wire (next :: rest) ⟨s.queues.size⟩ output (s.add .empty).2
      (⟨words, input, ⟨s.queues.size⟩⟩ :: more.1, more.2) := rfl

theorem wire_words (segs : List (List String)) (input output : StreamId) (streams : Streams) :
    (wire segs input output streams).1.map Stage.words = segs := by
  induction segs generalizing input streams with
  | nil => rfl
  | cons seg rest ih =>
    cases rest with
    | nil => rfl
    | cons next rest =>
      rw [wire]
      exact congrArg (seg :: ·) (ih _ _)

theorem wire_eq {segs : List (List String)} (hne : segs ≠ []) (input output : StreamId)
    (s : Streams) :
    wire segs input output s =
      (segs.mapIdx fun i words =>
        ⟨words, linkId ⟨input, output⟩ s.queues.size segs.length i,
          linkId ⟨input, output⟩ s.queues.size segs.length (i + 1)⟩,
        s.extend (segs.length - 1)) := by
  induction segs generalizing input s with
  | nil => exact absurd rfl hne
  | cons words rest ih =>
    cases rest with
    | nil => simp [wire, linkId, Streams.extend]
    | cons next rest =>
      -- The links behind the first are those of the rest, wired from the new stream on.
      have hlink (k : Nat) (hk : k ≤ rest.length + 1) :
          linkId ⟨⟨s.queues.size⟩, output⟩ (s.add .empty).2.queues.size (rest.length + 1) k =
            linkId ⟨input, output⟩ s.queues.size (rest.length + 1 + 1) (k + 1) := by
        unfold linkId
        simp only [Streams.add, Array.size_push]
        grind
      have hstages : (next :: rest).mapIdx (fun i words =>
            (⟨words, linkId ⟨⟨s.queues.size⟩, output⟩ (s.add .empty).2.queues.size
                (next :: rest).length i,
              linkId ⟨⟨s.queues.size⟩, output⟩ (s.add .empty).2.queues.size
                (next :: rest).length (i + 1)⟩ : Stage)) =
          (next :: rest).mapIdx fun i words =>
            ⟨words, linkId ⟨input, output⟩ s.queues.size (words :: next :: rest).length (i + 1),
              linkId ⟨input, output⟩ s.queues.size (words :: next :: rest).length (i + 1 + 1)⟩ := by
        rw [List.mapIdx_eq_mapIdx_iff]
        intro i hi
        simp only [List.length_cons] at hi ⊢
        rw [hlink i (by omega), hlink (i + 1) (by omega)]
      rw [wire_cons_cons, ih (List.cons_ne_nil _ _), hstages, Streams.add_extend,
        List.mapIdx_cons (l := next :: rest)]
      simp [linkId]

/-- Ends that are two streams of the store. -/
structure Streams.Connects (s : Streams) (ends : Ends) : Prop where
  has_input : s.Has ends.input
  has_output : s.Has ends.output
  distinct : ends.input ≠ ends.output

section Links

variable {ends : Ends} {s : Streams} {n k j : Nat}

theorem index_linkId (ends : Ends) (size n k : Nat) :
    (linkId ends size n k).index =
      if k = 0 then ends.input.index else if k = n then ends.output.index else size + (k - 1) := by
  unfold linkId
  split
  · rfl
  · split <;> rfl

theorem linkId_between (h₀ : 0 < k) (hn : k < n) (size : Nat) :
    linkId ends size n k = ⟨size + (k - 1)⟩ := by
  rw [linkId, if_neg (by omega), if_neg (by omega)]

theorem Streams.Connects.has_linkId (h : s.Connects ends) (hk : k ≤ n) :
    (s.extend (n - 1)).Has (linkId ends s.queues.size n k) := by
  have hin : ends.input.index < s.queues.size := h.has_input
  have hout : ends.output.index < s.queues.size := h.has_output
  rw [Streams.has_extend_iff, index_linkId]
  grind

/-- What the links hold when the stages have just been wired. -/
theorem Streams.Connects.get_linkId (h : s.Connects ends) (hk : k ≤ n) :
    (s.extend (n - 1)).get (linkId ends s.queues.size n k) =
      if k = 0 then s.get ends.input else if k = n then s.get ends.output else .empty := by
  unfold linkId
  split
  · exact Streams.get_extend_of_has h.has_input _
  · split
    · exact Streams.get_extend_of_has h.has_output _
    · exact Streams.get_extend_of_new (by dsimp only; omega) (by dsimp only; omega)

/-- Different links are different streams. -/
theorem Streams.Connects.linkId_inj (h : s.Connects ends)
    (he : linkId ends s.queues.size n k = linkId ends s.queues.size n j) : k = j := by
  have hin : ends.input.index < s.queues.size := h.has_input
  have hout : ends.output.index < s.queues.size := h.has_output
  have hne : ends.input.index ≠ ends.output.index := fun hi => h.distinct (StreamId.ext hi)
  have hx := congrArg StreamId.index he
  rw [index_linkId, index_linkId] at hx
  grind

end Links

section Stages

variable {segs : List (List String)} {ends : Ends} {s : Streams} {i : Nat}

theorem length_wire (segs : List (List String)) (input output : StreamId) (s : Streams) :
    (wire segs input output s).1.length = segs.length := by
  by_cases hne : segs = []
  · rw [hne]
    rfl
  · rw [wire_eq hne, List.length_mapIdx]

theorem streams_wire (hne : segs ≠ []) (input output : StreamId) (s : Streams) :
    (wire segs input output s).2 = s.extend (segs.length - 1) := by
  rw [wire_eq hne]

theorem Streams.keptIn_wire (segs : List (List String)) (input output : StreamId) (s : Streams) :
    s.KeptIn (wire segs input output s).2 := by
  by_cases hne : segs = []
  · subst hne
    exact KeptIn.refl s
  · rw [streams_wire hne]
    exact keptIn_extend s _

theorem getElem_wire (h : i < (wire segs ends.input ends.output s).1.length) :
    ((wire segs ends.input ends.output s).1[i]).input =
        linkId ends s.queues.size segs.length i ∧
      ((wire segs ends.input ends.output s).1[i]).output =
        linkId ends s.queues.size segs.length (i + 1) := by
  have hne : segs ≠ [] := by
    rintro rfl
    exact absurd h (Nat.not_lt_zero i)
  simp [wire_eq hne]

/-- The streams between neighbouring stages. -/
def links (stages : List Stage) : List StreamId := stages.dropLast.map Stage.output

/-- The links are the streams that wiring adds, each once. -/
theorem links_wire (segs : List (List String)) (ends : Ends) (s : Streams) :
    links (wire segs ends.input ends.output s).1 =
      (List.range (segs.length - 1)).map fun i => ⟨s.queues.size + i⟩ := by
  apply List.ext_getElem
  · simp [links, length_wire]
  · intro i hi hi'
    simp only [links, List.length_map, List.length_dropLast, length_wire] at hi
    have hlt : i < (wire segs ends.input ends.output s).1.length := by
      rw [length_wire]
      omega
    simp only [links, List.getElem_map, List.getElem_dropLast, List.getElem_range]
    rw [(getElem_wire hlt).2, linkId_between (Nat.succ_pos i) (by omega), Nat.succ_sub_one]

theorem mem_links_wire {id : StreamId} :
    id ∈ links (wire segs ends.input ends.output s).1 ↔
      s.queues.size ≤ id.index ∧ id.index < s.queues.size + (segs.length - 1) := by
  rw [links_wire, List.mem_map]
  constructor
  · rintro ⟨i, hi, rfl⟩
    have := List.mem_range.mp hi
    exact ⟨Nat.le_add_right .., Nat.add_lt_add_left this _⟩
  · rintro ⟨hle, hlt⟩
    exact ⟨id.index - s.queues.size, List.mem_range.mpr (by omega),
      StreamId.ext (Nat.add_sub_cancel' hle)⟩

theorem nodup_links_wire (segs : List (List String)) (ends : Ends) (s : Streams) :
    (links (wire segs ends.input ends.output s).1).Nodup := by
  rw [links_wire]
  refine List.nodup_range.map ?_
  intro i j hij
  have := congrArg StreamId.index hij
  dsimp only at this
  omega

theorem inputs_wire (hne : segs ≠ []) (ends : Ends) (s : Streams) :
    (wire segs ends.input ends.output s).1.map Stage.input =
      ends.input :: links (wire segs ends.input ends.output s).1 := by
  have hpos : 0 < segs.length := List.length_pos_iff.mpr hne
  rw [links_wire]
  apply List.ext_getElem
  · simp only [List.length_map, length_wire, List.length_cons, List.length_range]
    omega
  · intro i hi _
    simp only [List.length_map, length_wire] at hi
    rw [List.getElem_map, (getElem_wire (by rwa [length_wire])).1]
    cases i with
    | zero => rfl
    | succ i => simp [linkId_between (Nat.succ_pos i) hi]

theorem outputs_wire (hne : segs ≠ []) (ends : Ends) (s : Streams) :
    (wire segs ends.input ends.output s).1.map Stage.output =
      links (wire segs ends.input ends.output s).1 ++ [ends.output] := by
  have hpos : 0 < segs.length := List.length_pos_iff.mpr hne
  have hstages : (wire segs ends.input ends.output s).1.map Stage.output ≠ [] := by
    rw [ne_eq, ← List.length_eq_zero_iff, List.length_map, length_wire]
    omega
  have hlast : ((wire segs ends.input ends.output s).1.map Stage.output).getLast hstages =
      ends.output := by
    rw [List.getLast_eq_getElem, List.getElem_map, (getElem_wire _).2]
    simp only [List.length_map, length_wire, Nat.sub_add_cancel hpos]
    rw [linkId, if_neg (by omega), if_pos rfl]
  have hsplit := List.dropLast_append_getLast hstages
  rw [hlast] at hsplit
  rw [links, List.map_dropLast, hsplit]

/-- A link is what one stage writes to and the next one reads from. -/
theorem getElem_wire_link (h : i + 1 < (wire segs ends.input ends.output s).1.length) :
    ((wire segs ends.input ends.output s).1[i]).output = ⟨s.queues.size + i⟩ ∧
      ((wire segs ends.input ends.output s).1[i + 1]).input = ⟨s.queues.size + i⟩ := by
  have hlt : i + 1 < segs.length := Nat.lt_of_lt_of_eq h (length_wire ..)
  rw [(getElem_wire _).1, (getElem_wire _).2, linkId_between (Nat.succ_pos i) hlt]
  exact ⟨rfl, rfl⟩

/-- Whatever the segments, the ends and the store are: there is a stage for each segment, in order;
the first stage reads the input and the last one writes the output. What a stage writes the next one
reads: it is a stream that was not there before, that no other two neighbours share, and that is
open and empty. There is one new stream less than there are segments, and the streams that there
were stay as they are. -/
theorem wire_shape (segs : List (List String)) (ends : Ends) (s : Streams) :
    let stages := (wire segs ends.input ends.output s).1
    let wired := (wire segs ends.input ends.output s).2
    stages.map Stage.words = segs ∧
    (∀ first ∈ stages.head?, first.input = ends.input) ∧
    (∀ last ∈ stages.getLast?, last.output = ends.output) ∧
    (∀ i (h : i + 1 < stages.length), stages[i].output = stages[i + 1].input ∧
      ¬ s.Has stages[i].output ∧ wired.Has stages[i].output ∧
      wired.get stages[i].output = .empty ∧
      ∀ j (hj : j + 1 < stages.length), stages[j].output = stages[i].output → j = i) ∧
    wired.queues.size = s.queues.size + (segs.length - 1) ∧ s.KeptIn wired := by
  intro stages wired
  have hkept : s.KeptIn wired := Streams.keptIn_wire segs ends.input ends.output s
  by_cases hne : segs = []
  · subst hne
    exact ⟨rfl, by simp [stages, wire], by simp [stages, wire],
      fun i h => absurd h (Nat.not_lt_zero _), rfl, hkept⟩
  have hwired : wired = s.extend (segs.length - 1) := streams_wire hne ..
  have hsize : wired.queues.size = s.queues.size + (segs.length - 1) := by
    rw [hwired, Streams.size_extend]
  refine ⟨wire_words .., ?_, ?_, fun i h => ?_, hsize, hkept⟩
  · intro first hfirst
    have hhead := congrArg List.head? (inputs_wire hne ends s)
    rw [List.head?_map, Option.mem_def.mp hfirst] at hhead
    exact Option.some.inj hhead
  · intro last hlast
    have hend := congrArg List.getLast? (outputs_wire hne ends s)
    rw [List.getLast?_map, Option.mem_def.mp hlast, List.getLast?_concat] at hend
    exact Option.some.inj hend
  · obtain ⟨hwrite, hread⟩ := getElem_wire_link h
    have hlt : i + 1 < segs.length := Nat.lt_of_lt_of_eq h (length_wire ..)
    refine ⟨hwrite.trans hread.symm, ?_⟩
    rw [hwrite, hwired]
    refine ⟨by simp [Streams.Has], ?_, Streams.get_extend_of_new (Nat.le_add_right ..) ?_,
      fun j hj he => ?_⟩
    · rw [Streams.has_extend_iff]
      dsimp only
      omega
    · dsimp only
      omega
    · rw [(getElem_wire_link hj).1, hwrite] at he
      exact Nat.add_left_cancel (congrArg StreamId.index he)

end Stages

end TerminalShell.Command
