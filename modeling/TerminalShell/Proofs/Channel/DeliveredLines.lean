import TerminalShell.Proofs.Channel.LineAccount

/-!
Lines that a source has at hand. However it cuts their bytes into reads, a reader that goes on
asking gets the lines, and what follows them stays for the calls after those.
-/
namespace TerminalShell.Channel

variable {σ : Type}

/-- Reads of size `n` deliver these bytes from here on, in pieces of any lengths. What comes behind
them is left open. -/
inductive ByteSource.Delivers (source : ByteSource σ) (n : Nat) : σ → List UInt8 → Prop where
  | nil (s : σ) : source.Delivers n s []
  | cons {s : σ} {piece rest : List UInt8} (hread : (source.read n s).1 = .delivered piece)
      (hrest : source.Delivers n (source.read n s).2 rest) : source.Delivers n s (piece ++ rest)

/-- A queue delivers what it holds. -/
theorem ByteSource.Reports.delivers {source : ByteSource ByteQueue} (hs : source.Reports) {n : Nat}
    (hn : 0 < n) (bytes : List UInt8) (interrupted : Bool) :
    source.Delivers n (.opened bytes interrupted) bytes := by
  induction hlength : bytes.length using Nat.strongRecOn generalizing bytes with
  | _ length ih =>
    by_cases hb : bytes = []
    · exact hb ▸ .nil _
    · have hlt : (bytes.drop n).length < length := by
        have := List.length_pos_iff.mpr hb
        rw [List.length_drop]
        omega
      have hread := hs.read_opened hb n interrupted
      have hrest : source.Delivers n (source.read n (.opened bytes interrupted)).2
          (bytes.drop n) := by
        rw [hread]
        exact ih _ hlt _ rfl
      have h := Delivers.cons (congrArg Prod.fst hread) hrest
      rwa [List.take_append_drop] at h

namespace LineReader

variable {source : ByteSource σ} {s : σ} {r : LineReader} {n : Nat} {bytes line rest : List UInt8}

theorem calls_add (source : ByteSource σ) (r : LineReader) (s : σ) (j k : Nat) :
    calls source r s (j + k) =
      let (outcomes, r, s) := calls source r s j
      let (more, r, s) := calls source r s k
      (outcomes ++ more, r, s) := by
  induction j generalizing r s with
  | zero => rw [Nat.zero_add]; rfl
  | succ j ih =>
    simp only [Nat.succ_add, calls, ih]
    rfl

/-- Whoever asks a source for a line that it has at hand gets it, after asking in vain as often as
the source delivers nothing. -/
theorem calls_of_line (h : source.Delivers n s bytes) (hn : r.chunkSize = n) (hl : 10 ∉ line)
    (hcut : r.pending ++ bytes = line ++ 10 :: rest) :
    ∃ k pending left s', pending ++ left = rest ∧ source.Delivers n s' left ∧
      calls source r s (k + 1) =
        (List.replicate k .incomplete ++
            [.line (Text.Utf8.decodeLenient (Text.dropReturn line))],
          { r with pending := pending }, s') := by
  induction h generalizing r with
  | nil s =>
    have hr : 10 ∈ r.pending := by
      rw [List.append_nil] at hcut
      simp [hcut]
    obtain ⟨pending, hrest, hnext⟩ := next_of_kept_line source s hr hl hcut
    exact ⟨0, pending, [], s, hrest, .nil s, by simp [calls, hnext]⟩
  | @cons s piece more hread hmore ih =>
    by_cases hr : 10 ∈ r.pending
    · obtain ⟨pending, hrest, hnext⟩ := next_of_kept_line source s hr hl hcut
      exact ⟨0, pending, piece ++ more, s, hrest, .cons hread hmore, by simp [calls, hnext]⟩
    subst hn
    by_cases hp : piece = []
    · subst hp
      have hnext : next source r s = (.incomplete, r, (source.read r.chunkSize s).2) :=
        next_of_outcome source s hr (by simp [hread, absorb])
      obtain ⟨k, pending, left, s', hrest, hleft, hcalls⟩ := ih rfl hcut
      refine ⟨k + 1, pending, left, s', hrest, hleft, ?_⟩
      rw [calls, hnext]
      simp only [hcalls]
      rfl
    · have hnext : next source r s =
          next source { r with pending := r.pending ++ piece } (source.read r.chunkSize s).2 :=
        next_of_more source s hr (by simp [hread, absorb, hp])
      obtain ⟨k, pending, left, s', hrest, hleft, hcalls⟩ :=
        @ih { r with pending := r.pending ++ piece } rfl (by rw [List.append_assoc, hcut])
      refine ⟨k, pending, left, s', hrest, hleft, ?_⟩
      rw [calls] at hcalls ⊢
      rw [hnext, hcalls]

/-- Several lines come as one does, in their order. -/
theorem calls_of_lines {lines : List (List UInt8)} (h : source.Delivers n s bytes)
    (hn : r.chunkSize = n) (hl : ∀ line ∈ lines, 10 ∉ line)
    (hcut : r.pending ++ bytes = lines.flatMap (· ++ [10]) ++ rest) :
    ∃ k outcomes pending left s', pending ++ left = rest ∧ source.Delivers n s' left ∧
      outcomes.filter (· ≠ .incomplete) =
        lines.map (fun line => .line (Text.Utf8.decodeLenient (Text.dropReturn line))) ∧
      calls source r s k = (outcomes, { r with pending := pending }, s') := by
  induction lines generalizing r s bytes with
  | nil => exact ⟨0, [], r.pending, bytes, s, hcut, h, rfl, rfl⟩
  | cons line lines ih =>
    obtain ⟨hline, hlines⟩ := List.forall_mem_cons.mp hl
    rw [List.flatMap_cons, List.append_assoc, List.append_assoc, List.singleton_append] at hcut
    obtain ⟨j, pending, left, s', hrest, hleft, hfirst⟩ := calls_of_line h hn hline hcut
    obtain ⟨k, outcomes, pending', left', s'', hrest', hleft', hmore, hcalls⟩ :=
      @ih s' { r with pending := pending } left hleft hn hlines hrest
    refine ⟨j + 1 + k, List.replicate j .incomplete ++
      [.line (Text.Utf8.decodeLenient (Text.dropReturn line))] ++ outcomes,
      pending', left', s'', hrest', hleft', ?_, ?_⟩
    · rw [List.filter_append, hmore]
      simp
    · rw [calls_add, hfirst]
      simp only [hcalls]

end LineReader

end TerminalShell.Channel
