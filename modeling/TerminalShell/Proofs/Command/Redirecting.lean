import TerminalShell.Command.NamedStreams
import TerminalShell.Proofs.Command.Opening
import TerminalShell.Proofs.Command.Segmentation

/-!
What a redirection changes about the wiring. Main statement: with an opener a line is wired as it is
without one, except that the opened stream takes the place of one end.
-/
namespace TerminalShell.Command

variable {σ : Type} {g : Grammar} {line : String} {ends : Ends} {state : σ} {streams : Streams}

namespace Streams

/-- Names in one run for the streams of another: those of the store in which the other one begins
keep their names, and streams added to it are, one by one, streams added to the other store. -/
structure IsRelocation (s t : Streams) (rename : StreamId → StreamId) : Prop where
  eq_self : ∀ id, s.Has id → rename id = id
  not_has : ∀ id, ¬ s.Has id → ¬ t.Has (rename id)
  inj : ∀ a b, ¬ s.Has a → ¬ s.Has b → rename a = rename b → a = b

/-- What is added to `s` as the stream of some number is what is added to `t` as that one. -/
def relocate (s t : Streams) (id : StreamId) : StreamId :=
  if id.index < s.queues.size then id else ⟨t.queues.size + (id.index - s.queues.size)⟩

variable {s t : Streams} {id : StreamId}

theorem relocate_of_has (h : s.Has id) (t : Streams) : s.relocate t id = id := if_pos h

theorem relocate_of_not_has (h : ¬ s.Has id) (t : Streams) :
    s.relocate t id = ⟨t.queues.size + (id.index - s.queues.size)⟩ := if_neg h

theorem isRelocation_relocate (s t : Streams) : s.IsRelocation t (s.relocate t) where
  eq_self _ h := relocate_of_has h t
  not_has id h := by
    rw [relocate_of_not_has h]
    exact Nat.not_lt.mpr (Nat.le_add_right ..)
  inj a b ha hb he := by
    rw [relocate_of_not_has ha, relocate_of_not_has hb] at he
    have hsub := Nat.add_left_cancel (congrArg StreamId.index he)
    have hla : s.queues.size ≤ a.index := Nat.not_lt.mp ha
    have hlb : s.queues.size ≤ b.index := Nat.not_lt.mp hb
    exact StreamId.ext (by omega)

theorem map_relocate_links (s t : Streams) (segs : List (List String)) (ends other : Ends) :
    (links (wire segs ends.input ends.output s).1).map (s.relocate t) =
      links (wire segs other.input other.output t).1 := by
  rw [links_wire, links_wire, List.map_map]
  refine List.map_congr_left fun i _ => ?_
  rw [Function.comp_apply, relocate_of_not_has (Nat.not_lt.mpr (Nat.le_add_right ..)),
    Nat.add_sub_cancel_left]

end Streams

/-- The second stages are wired as the first ones are, with streams renamed, but for one end: the
one that a redirection of the mode replaces is the target. -/
def IsRewired (rename : StreamId → StreamId) (target : StreamId) (first second : List Stage) :
    Redirection.Mode → Prop
  | .input =>
    second.map Stage.input = target :: (first.map Stage.input).tail.map rename ∧
      second.map Stage.output = (first.map Stage.output).map rename
  | .output | .append =>
    second.map Stage.input = (first.map Stage.input).map rename ∧
      second.map Stage.output = (first.map Stage.output).dropLast.map rename ++ [target]

theorem isRewired_wire {segs : List (List String)} (hne : segs ≠ [])
    (hin : streams.Has ends.input) (hout : streams.Has ends.output) (opened : Streams)
    (target : StreamId) (mode : Redirection.Mode) :
    let redirected := ends.redirect target mode
    IsRewired (streams.relocate opened) target (wire segs ends.input ends.output streams).1
      (wire segs redirected.input redirected.output opened).1 mode := by
  intro redirected
  have hlinks := streams.map_relocate_links opened segs ends redirected
  have hinput := streams.relocate_of_has hin opened
  have houtput := streams.relocate_of_has hout opened
  cases mode <;>
    simp only [IsRewired, inputs_wire hne, outputs_wire hne, List.tail_cons, List.map_cons,
      List.map_append, List.map_nil, List.dropLast_concat, hlinks, hinput, houtput] <;>
    exact ⟨rfl, rfl⟩

/-- A redirection is of some command. -/
theorem Grammar.Accepts.segments_ne_nil {segs : List (List String)} {r : Redirection}
    (h : g.Accepts line ⟨segs, some r⟩) : segs ≠ [] := by
  obtain ⟨-, -, hb, hs⟩ := h
  rintro rfl
  exact Option.some_ne_none r (hb (segments_eq_ok_iff.mp hs).1)

/-- For any line, between two ends that there are, and with an opener that opens what the line asks
for: the line is submitted with the opener exactly when it is submitted without it, and as the same
commands with the same redirection. The redirection is applied, by the opener only, if there is one.
Without a redirection the opener makes no difference at all. With one, the opened stream is the
input of the first stage or the output of the last one, by the mode, and all else is wired as it is
without the opener. -/
theorem redirection_changes_one_end (g : Grammar) (opener : Opener σ) (line : String) (state : σ)
    (hin : streams.Has ends.input) (hout : streams.Has ends.output)
    (hopen : ∀ segs r, g.Accepts line ⟨segs, some r⟩ →
      ∃ target, (opener r.target r.mode state streams).1 = .ok target) :
    let redirected := g.submit (some opener) line ends state streams
    let plain := g.submit none line ends state streams
    ((∃ a, redirected.1 = .ok a) ↔ ∃ b, plain.1 = .ok b) ∧
    (∀ e, redirected.1 = .error e ↔ plain.1 = .error e) ∧
    ∀ a b, redirected.1 = .ok a → plain.1 = .ok b →
      a.stages.map Stage.words = b.stages.map Stage.words ∧
      a.redirection = b.redirection ∧
      (a.applied = true ↔ a.redirection ≠ none) ∧ b.applied = false ∧
      (a.redirection = none → redirected = plain) ∧
      ∀ r, a.redirection = some r → a.stages ≠ [] ∧
        let asked := opener r.target r.mode state streams
        ∃ target rename, asked.1 = .ok target ∧ streams.IsRelocation asked.2.2 rename ∧
          IsRewired rename target b.stages a.stages r.mode := by
  intro redirected plain
  rcases g.rejects_or_accepts line with ⟨e, he⟩ | ⟨⟨segs, redirection⟩, hp⟩
  · have hsame : redirected = plain := (he.submit _).trans (he.submit _).symm
    have herror : plain.1 = .error (.line e) := congrArg (·.1) (he.submit (none : Option (Opener σ)))
    rw [hsame]
    refine ⟨Iff.rfl, fun _ => Iff.rfl, fun a b _ hb => ?_⟩
    rw [herror] at hb
    contradiction
  · have hplain : plain = _ := hp.submit_unasked (.inl rfl)
    cases redirection with
    | none =>
      have hsame : redirected = plain := (hp.submit_unasked (.inr rfl)).trans hplain.symm
      rw [hsame]
      refine ⟨Iff.rfl, fun _ => Iff.rfl, fun a b ha hb => ?_⟩
      obtain rfl : a = b := Except.ok.inj (ha.symm.trans hb)
      rw [hplain] at hb
      obtain rfl := Except.ok.inj hb
      exact ⟨rfl, rfl, by simp, rfl, fun _ => rfl, by simp⟩
    | some r =>
      obtain ⟨target, htarget⟩ := hopen segs r hp
      have hredirected : redirected = _ := hp.submit_asked opener
      rcases ho : opener r.target r.mode state streams with ⟨answer, after, opened⟩
      obtain rfl : answer = .ok target := by rw [← htarget, ho]
      rw [ho] at hredirected
      rw [hredirected, hplain]
      refine ⟨by simp [Plan.wired], by simp [Plan.wired], fun a b ha hb => ?_⟩
      obtain rfl := Except.ok.inj ha
      obtain rfl := Except.ok.inj hb
      refine ⟨(wire_words ..).trans (wire_words ..).symm, rfl, by simp, rfl, by simp, ?_⟩
      intro r' hr'
      obtain rfl : r = r' := Option.some.inj hr'
      refine ⟨fun hnil => hp.segments_ne_nil ?_, ?_⟩
      · exact (wire_words ..).symm.trans (congrArg (List.map Stage.words) hnil)
      · rw [ho]
        exact ⟨target, _, rfl, streams.isRelocation_relocate opened,
          isRewired_wire hp.segments_ne_nil hin hout opened target r.mode⟩

/-- The opener makes a new stream, so the link between the two commands has another name. -/
theorem redirection_changes_one_end_appended :
    let streams : Streams := ⟨#[.empty, .empty]⟩
    let ends : Ends := ⟨⟨0⟩, ⟨1⟩⟩
    let asked := NamedStreams.opener "log" .append {} streams
    streams.Has ends.input ∧ streams.Has ends.output ∧
      (∀ segs r, ({} : Grammar).Accepts "ls | sort >> log" ⟨segs, some r⟩ →
        ∃ target, (NamedStreams.opener r.target r.mode {} streams).1 = .ok target) ∧
      ∃ target rename, asked.1 = .ok target ∧ streams.IsRelocation asked.2.2 rename ∧
        IsRewired rename target [⟨["ls"], ⟨0⟩, ⟨2⟩⟩, ⟨["sort"], ⟨2⟩, ⟨1⟩⟩]
          [⟨["ls"], ⟨0⟩, ⟨3⟩⟩, ⟨["sort"], ⟨3⟩, ⟨2⟩⟩] .append := by
  intro streams ends asked
  have hin : streams.Has ends.input := by unfold Streams.Has; decide
  have hout : streams.Has ends.output := by unfold Streams.Has; decide
  have hopen (segs : List (List String)) (r : Redirection)
      (hp : ({} : Grammar).Accepts "ls | sort >> log" ⟨segs, some r⟩) :
      ∃ target, (NamedStreams.opener r.target r.mode {} streams).1 = .ok target := by
    have hplan : ({} : Grammar).plan "ls | sort >> log" =
        .ok ⟨[["ls"], ["sort"]], some ⟨.append, "log"⟩⟩ := by rfl
    obtain ⟨-, rfl⟩ : [["ls"], ["sort"]] = segs ∧ ⟨.append, "log"⟩ = r := by
      simpa using hplan.symm.trans hp.plan_eq
    exact ⟨⟨2⟩, rfl⟩
  have hall := redirection_changes_one_end {} NamedStreams.opener "ls | sort >> log" {} hin hout
    hopen
  exact ⟨hin, hout, hopen, ((hall.2.2 _ _ rfl rfl).2.2.2.2.2 _ rfl).2⟩

end TerminalShell.Command
