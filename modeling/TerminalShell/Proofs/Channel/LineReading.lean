import TerminalShell.Channel.LineReader

/-!
What a reader of lines makes of an open queue: it takes the first line that its bytes and those of
the queue hold together, or else all of them.
-/
namespace TerminalShell.Text

theorem splitLine?_eq_some_iff {bytes line rest : List UInt8} :
    splitLine? bytes = some (line, rest) ↔ 10 ∉ line ∧ bytes = line ++ 10 :: rest := by
  constructor
  · intro h
    refine ⟨?_, eq_append_of_splitLine? h⟩
    induction bytes generalizing line with
    | nil => simp [splitLine?] at h
    | cons b bytes ih =>
      by_cases hb : b = 10
      · simp only [splitLine?, hb, if_true, Option.some.injEq, Prod.mk.injEq] at h
        simp [← h.1]
      · simp only [splitLine?, hb, if_false, Option.map_eq_some_iff, Prod.mk.injEq] at h
        obtain ⟨⟨line', rest'⟩, h, rfl, rfl⟩ := h
        simp [ih h, Ne.symm hb]
  · rintro ⟨hl, rfl⟩
    exact splitLine?_append hl rest

theorem firstLine_inj {a b c d : List UInt8} (ha : 10 ∉ a) (hb : 10 ∉ b)
    (h : a ++ 10 :: c = b ++ 10 :: d) : a = b ∧ c = d := by
  have hs := splitLine?_append ha c
  rw [h, splitLine?_append hb d, Option.some.injEq, Prod.mk.injEq] at hs
  exact ⟨hs.1.symm, hs.2.symm⟩

end TerminalShell.Text

namespace TerminalShell.Channel

/-- A source that yields what a plain read does while a queue has something to report. -/
def ByteSource.Reports (source : ByteSource ByteQueue) : Prop :=
  ∀ n q, q ≠ .opened [] false → source.read n q = (.ofResult (q.read n).1, (q.read n).2)

theorem ByteQueue.polled_reports : polled.Reports := fun _ _ _ => rfl

theorem ByteQueue.awaited_reports : awaited.Reports := by
  intro n q hq
  have h : q.readBlocking? n = some (q.read n) := by simp [readBlocking?, hq]
  simp [awaited, h]

theorem ByteSource.Reports.read_opened {source : ByteSource ByteQueue} (hs : source.Reports)
    {bytes : List UInt8} (hb : bytes ≠ []) (n : Nat) (interrupted : Bool) :
    source.read n (.opened bytes interrupted) =
      (.delivered (bytes.take n), .opened (bytes.drop n) interrupted) := by
  rw [hs _ _ (by simp [hb])]
  simp [ByteQueue.read, hb, Reading.ofResult]

theorem ByteQueue.awaited_read_empty {n : Nat} (hn : 0 < n) :
    awaited.read n (.opened [] false) = (.waiting, .opened [] false) := by
  simp [awaited, readBlocking?, Nat.ne_of_gt hn]

namespace LineReader

/-- A reader takes something off a queue that is not empty. -/
theorem take_chunkSize_ne_nil (r : LineReader) {bytes : List UInt8} (hb : bytes ≠ []) :
    bytes.take r.chunkSize ≠ [] := by
  have := r.chunkSize_pos
  simp [hb]
  omega

theorem takeLine?_eq_none_iff {r : LineReader} : r.takeLine? = none ↔ 10 ∉ r.pending := by
  rw [takeLine?, Option.map_eq_none_iff, Text.splitLine?_eq_none_iff]

theorem takeLine?_eq_some {r r' : LineReader} {text : String} (h : r.takeLine? = some (text, r')) :
    ∃ line rest, 10 ∉ line ∧ r.pending = line ++ 10 :: rest ∧
      text = Text.Utf8.decodeLenient (Text.dropReturn line) ∧ r' = { r with pending := rest } := by
  obtain ⟨⟨line, rest⟩, hs, he⟩ := Option.map_eq_some_iff.mp h
  obtain ⟨hline, hcut⟩ := Text.splitLine?_eq_some_iff.mp hs
  rw [Prod.mk.injEq] at he
  exact ⟨line, rest, hline, hcut, he.1.symm, he.2.symm⟩

section Reading

variable {σ : Type} (source : ByteSource σ) {r r' : LineReader} (s : σ)

theorem next_of_takeLine? {text : String}
    (h : r.takeLine? = some (text, r')) : next source r s = (.line text, r', s) := by
  rw [next, h]

theorem next_of_outcome {outcome : Outcome} (hr : 10 ∉ r.pending)
    (h : r.absorb (source.read r.chunkSize s).1 = (some outcome, r')) :
    next source r s = (outcome, r', (source.read r.chunkSize s).2) := by
  rw [next, takeLine?_eq_none_iff.mpr hr]
  dsimp only
  split
  next h' =>
    rw [h, Prod.mk.injEq, Option.some.injEq] at h'
    rw [h'.1, h'.2]
  next h' => simp [h] at h'

theorem next_of_more (hr : 10 ∉ r.pending)
    (h : r.absorb (source.read r.chunkSize s).1 = (none, r')) :
    next source r s = next source r' (source.read r.chunkSize s).2 := by
  rw [next, takeLine?_eq_none_iff.mpr hr]
  dsimp only
  split
  next h' => simp [h] at h'
  next h' =>
    rw [h, Prod.mk.injEq] at h'
    rw [h'.2]

/-- A line whose line feed has come already is the next one, whatever comes behind it. -/
theorem next_of_kept_line {bytes line rest : List UInt8} (hr : 10 ∈ r.pending) (hl : 10 ∉ line)
    (h : r.pending ++ bytes = line ++ 10 :: rest) :
    ∃ pending, pending ++ bytes = rest ∧
      next source r s = (.line (Text.Utf8.decodeLenient (Text.dropReturn line)),
        { r with pending := pending }, s) := by
  obtain ⟨⟨text, r'⟩, ht⟩ := Option.ne_none_iff_exists'.mp
    (mt takeLine?_eq_none_iff.mp (not_not_intro hr))
  obtain ⟨line', pending, hl', hp, rfl, rfl⟩ := takeLine?_eq_some ht
  rw [hp, List.append_assoc, List.cons_append] at h
  obtain ⟨rfl, hrest⟩ := Text.firstLine_inj hl' hl h
  exact ⟨pending, hrest, next_of_takeLine? source s ht⟩

/-- A reader of a part of a state changes that part alone. -/
theorem next_within {τ : Type} {get : τ → σ} {set : σ → τ → τ}
    (get_set : ∀ s t, get (set s t) = s) (set_set : ∀ s s' t, set s (set s' t) = set s t)
    (set_get : ∀ t, set (get t) t = t) (r : LineReader) (t : τ) :
    next (source.within get set get_set) r t =
      ((next source r (get t)).1, (next source r (get t)).2.1,
        set (next source r (get t)).2.2 t) := by
  fun_induction next (source.within get set get_set) r t with
  | case1 r t text r' h => rw [next_of_takeLine? source (get t) h, set_get]
  | case2 r t h outcome r' h' =>
    rw [next_of_outcome source (get t) (takeLine?_eq_none_iff.mp h) h']
    rfl
  | case3 r t h r' h' _ _ ih =>
    rw [ih, next_of_more source (get t) (takeLine?_eq_none_iff.mp h) h']
    simp only [ByteSource.within, get_set, set_set]

end Reading

variable {source : ByteSource ByteQueue}

theorem next_opened {r : LineReader} {bytes : List UInt8} {interrupted : Bool}
    (hs : source.Reports) (hr : 10 ∉ r.pending) (hb : bytes ≠ []) :
    next source r (.opened bytes interrupted) =
      next source { r with pending := r.pending ++ bytes.take r.chunkSize }
        (.opened (bytes.drop r.chunkSize) interrupted) := by
  have hread := hs.read_opened hb r.chunkSize interrupted
  have habsorb : r.absorb (source.read r.chunkSize (.opened bytes interrupted)).1 =
      (none, { r with pending := r.pending ++ bytes.take r.chunkSize }) := by
    simp [hread, absorb, r.take_chunkSize_ne_nil hb]
  rw [next_of_more source _ hr habsorb, hread]

/-- Bytes without a line feed all become a part of the unfinished line. -/
theorem next_opened_drained {r : LineReader} {bytes : List UInt8} {interrupted : Bool}
    (hs : source.Reports) (h : 10 ∉ r.pending ++ bytes) :
    next source r (.opened bytes interrupted) =
      next source { r with pending := r.pending ++ bytes } (.opened [] interrupted) := by
  induction hn : bytes.length using Nat.strongRecOn generalizing r bytes with
  | _ n ih =>
    by_cases hb : bytes = []
    · simp [hb]
    · have hpos := r.chunkSize_pos
      have hlt : (bytes.drop r.chunkSize).length < n := by
        have := List.length_pos_iff.mpr hb
        rw [List.length_drop]
        omega
      have hall : (r.pending ++ bytes.take r.chunkSize) ++ bytes.drop r.chunkSize =
          r.pending ++ bytes := by
        rw [List.append_assoc, List.take_append_drop]
      rw [next_opened hs (fun hm => h (List.mem_append_left _ hm)) hb,
        ih _ hlt (hall ▸ h) rfl]
      simp only [hall]

/-- The bytes of the reader and of the queue together decide the next line; what follows it stays
partly with the one and partly with the other. -/
theorem next_opened_of_line {r : LineReader} {bytes line rest : List UInt8} {interrupted : Bool}
    (hs : source.Reports) (hl : 10 ∉ line) (h : r.pending ++ bytes = line ++ 10 :: rest) :
    ∃ pending left, pending ++ left = rest ∧
      next source r (.opened bytes interrupted) =
        (.line (Text.Utf8.decodeLenient (Text.dropReturn line)), { r with pending := pending },
          .opened left interrupted) := by
  induction hn : bytes.length using Nat.strongRecOn generalizing r bytes with
  | _ n ih =>
    by_cases hr : 10 ∈ r.pending
    · obtain ⟨pending, hrest, hnext⟩ := next_of_kept_line source (.opened bytes interrupted) hr hl h
      exact ⟨pending, bytes, hrest, hnext⟩
    · have hb : bytes ≠ [] := by
        rintro rfl
        rw [List.append_nil] at h
        exact hr (h ▸ by simp)
      have hpos := r.chunkSize_pos
      have hlt : (bytes.drop r.chunkSize).length < n := by
        have := List.length_pos_iff.mpr hb
        rw [List.length_drop]
        omega
      have hall : (r.pending ++ bytes.take r.chunkSize) ++ bytes.drop r.chunkSize =
          line ++ 10 :: rest := by
        rw [List.append_assoc, List.take_append_drop, h]
      rw [next_opened hs hr hb]
      exact ih _ hlt (r := { r with pending := r.pending ++ bytes.take r.chunkSize }) hall rfl

/-- A reader that does not wait finds no line in bytes without a line feed, and keeps them. -/
theorem next_polled_of_notMem {r : LineReader} {bytes : List UInt8} (h : 10 ∉ r.pending ++ bytes) :
    next ByteQueue.polled r (.opened bytes false) =
      (.incomplete, { r with pending := r.pending ++ bytes }, .opened [] false) := by
  have hread : ByteQueue.polled.read r.chunkSize (.opened [] false) =
      (.delivered [], .opened [] false) := by
    simp [ByteQueue.polled, ByteQueue.read, Reading.ofResult]
  rw [next_opened_drained ByteQueue.polled_reports h, next_of_outcome _ _ h (by rw [hread]; rfl),
    hread]

theorem next_awaited_of_notMem {r : LineReader} {bytes : List UInt8} (h : 10 ∉ r.pending ++ bytes) :
    next ByteQueue.awaited r (.opened bytes false) =
      (.waiting, { r with pending := r.pending ++ bytes }, .opened [] false) := by
  have hread := ByteQueue.awaited_read_empty r.chunkSize_pos
  rw [next_opened_drained ByteQueue.awaited_reports h, next_of_outcome _ _ h (by rw [hread]; rfl),
    hread]

end LineReader

end TerminalShell.Channel
