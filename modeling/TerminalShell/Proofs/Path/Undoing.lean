import Mathlib.Data.List.Induction
import TerminalShell.Proofs.Path.Normalization

/-!
Which names a walk keeps. Two dots match a name as a closing bracket matches an opening one, with
nothing but matched pairs between them. Main statement: the names that are left are those that no
two dots match, at their places and in their order.
-/
namespace TerminalShell.PathStyle

/-- Segments in which names and two dots match as brackets do; all other segments may stand
anywhere. -/
inductive RoundTrip : List String → Prop
  | here : RoundTrip []
  | stay {segment} : ¬ IsName segment → segment ≠ ".." → RoundTrip [segment]
  | back {name inner} : IsName name → RoundTrip inner → RoundTrip (name :: (inner ++ [".."]))
  | append {first second} : RoundTrip first → RoundTrip second → RoundTrip (first ++ second)

/-- The two dots at the place `j` match the name at the place `i`: between them is a round trip. -/
def Undone (segments : List String) (i j : Nat) : Prop :=
  ∃ front name trip rest, segments = front ++ name :: (trip ++ ".." :: rest) ∧
    IsName name ∧ RoundTrip trip ∧ i = front.length ∧ j = front.length + 1 + trip.length

def NameAt (segments : List String) (i : Nat) : Prop :=
  ∃ name ∈ segments[i]?, IsName name

/-- A name stands at the place `i`, and no two dots match it. -/
def Kept (segments : List String) (i : Nat) : Prop :=
  NameAt segments i ∧ ∀ j, ¬ Undone segments i j

variable {segments first second front trip : List String} {places : List Nat} {name : String}
  {i j : Nat}

/-! Round trips. -/

theorem not_isName_dots : ¬ IsName ".." := fun h => h.ne_dots rfl

theorem RoundTrip.walk_eq (h : RoundTrip trip) (stack : List String) :
    trip.foldl enter stack = stack := by
  induction h generalizing stack with
  | here => rfl
  | @stay segment hn hd =>
    rcases enter_cases stack segment with ⟨h, -⟩ | ⟨h, -⟩ | ⟨-, -, he⟩
    · exact absurd h hn
    · exact absurd h hd
    · exact he
  | @back name inner hn _ ih =>
    rw [List.foldl_cons, List.foldl_append, hn.enter_eq, ih]
    rfl
  | append _ _ ih₁ ih₂ => rw [List.foldl_append, ih₁, ih₂]

/-- Wherever it starts, a walk along the segments does not come above its start on the way. -/
def NeverAbove (segments : List String) : Prop :=
  ∀ front, front <+: segments → ∀ stack, stack <:+ front.foldl enter stack

theorem NeverAbove.append (h₁ : NeverAbove first) (h₂ : NeverAbove second) :
    NeverAbove (first ++ second) := by
  intro front hp stack
  rcases List.prefix_or_prefix_of_prefix hp (List.prefix_append first second) with h | ⟨rest, rfl⟩
  · exact h₁ front h stack
  · rw [List.foldl_append]
    exact (h₁ first List.prefix_rfl stack).trans
      (h₂ rest ((List.prefix_append_right_inj first).mp hp) _)

theorem neverAbove_singleton {segment : String} (h : segment ≠ "..") : NeverAbove [segment] := by
  intro front hp stack
  rcases List.prefix_cons_iff.mp hp with rfl | ⟨rest, rfl, hrest⟩
  · exact List.suffix_rfl
  · rw [List.prefix_nil.mp hrest]
    rcases enter_cases stack segment with ⟨-, he⟩ | ⟨hd, -⟩ | ⟨-, -, he⟩
    · exact ⟨[segment], he.symm⟩
    · exact absurd hd h
    · exact ⟨[], he.symm⟩

theorem RoundTrip.neverAbove (h : RoundTrip trip) : NeverAbove trip := by
  induction h with
  | here =>
    intro front hp stack
    rw [List.prefix_nil.mp hp]
    exact List.suffix_rfl
  | stay _ hd => exact neverAbove_singleton hd
  | @back name inner hn hinner ih =>
    intro front hp stack
    -- all of it leads back, and whatever ends before the dots stays below the name
    rw [← List.cons_append, List.prefix_concat_iff] at hp
    rcases hp with rfl | hp
    · exact ⟨[], ((RoundTrip.back hn hinner).walk_eq stack).symm⟩
    · exact (neverAbove_singleton hn.ne_dots).append ih front hp stack
  | append _ _ ih₁ ih₂ => exact ih₁.append ih₂

/-- The rest of a round trip and two dots more lead above the place where that rest began. -/
theorem RoundTrip.not_neverAbove (inner : List String) (h : RoundTrip (inner ++ trip))
    (rest : List String) : ¬ NeverAbove (trip ++ ".." :: rest) := by
  intro hnever
  have hinner : ["a"] <:+ inner.foldl enter ["a"] :=
    h.neverAbove inner (List.prefix_append inner trip) ["a"]
  have hdots := hnever (trip ++ [".."]) ⟨rest, by simp⟩ (inner.foldl enter ["a"])
  rw [← List.foldl_append, ← List.append_assoc, List.foldl_append, h.walk_eq] at hdots
  exact absurd (List.suffix_nil.mp (hinner.trans hdots)) (List.cons_ne_nil _ _)

/-- Where a list is cut at two of its members, one cut is the other or comes before it. -/
theorem append_cons_cases {α : Type} {l l' r r' : List α} {a b : α}
    (h : l ++ a :: r = l' ++ b :: r') :
    l = l' ∨ (∃ m, l' = l ++ a :: m ∧ r = m ++ b :: r') ∨
      ∃ m, l = l' ++ b :: m ∧ r' = m ++ a :: r := by
  rcases List.append_eq_append_iff.mp h with ⟨m, rfl, hm⟩ | ⟨m, rfl, hm⟩
  · rcases List.cons_eq_append_iff.mp hm with ⟨rfl, -⟩ | ⟨m, rfl, hr⟩
    · exact .inl (List.append_nil l).symm
    · exact .inr (.inl ⟨m, rfl, hr⟩)
  · rcases List.cons_eq_append_iff.mp hm with ⟨rfl, -⟩ | ⟨m, rfl, hr⟩
    · exact .inl (List.append_nil l')
    · exact .inr (.inr ⟨m, rfl, hr⟩)

/-- A round trip with two dots behind it ends at the same place however it is read. -/
theorem RoundTrip.eq_of_dots {trip' rest rest' : List String} (h : RoundTrip trip)
    (h' : RoundTrip trip') (he : trip ++ ".." :: rest = trip' ++ ".." :: rest') : trip = trip' := by
  rcases append_cons_cases he with heq | ⟨after, rfl, -⟩ | ⟨after, rfl, -⟩
  · exact heq
  · exact absurd h'.neverAbove (h.not_neverAbove [] after)
  · exact absurd h.neverAbove (h'.not_neverAbove [] after)

theorem normalize_name_trip (hn : IsName name) (ht : RoundTrip trip) (front : List String) :
    normalize (front ++ name :: trip) = normalize front ++ [name] := by
  rw [normalize, List.foldl_append, List.foldl_cons, hn.enter_eq, ht.walk_eq, List.reverse_cons]
  rfl

/-- No name is left open on a round trip. -/
theorem RoundTrip.not_open {inner : List String} (h : RoundTrip (inner ++ name :: trip))
    (hn : IsName name) : ¬ RoundTrip trip := by
  intro ht
  have he := normalize_name_trip hn ht inner
  rw [normalize, h.walk_eq] at he
  exact absurd he.symm (by simp)

/-! Names and the two dots that match them. -/

theorem NameAt.lt_length (h : NameAt segments i) : i < segments.length := by
  obtain ⟨name, hm, -⟩ := h
  exact (List.getElem?_eq_some_iff.mp hm).1

theorem NameAt.exists_split (h : NameAt segments i) :
    ∃ front name rest, segments = front ++ name :: rest ∧ i = front.length ∧ IsName name := by
  obtain ⟨name, hm, hn⟩ := h
  obtain ⟨hi, rfl⟩ := List.getElem?_eq_some_iff.mp hm
  refine ⟨segments.take i, segments[i], segments.drop (i + 1), ?_, ?_, hn⟩
  · rw [← List.drop_eq_getElem_cons hi, List.take_append_drop]
  · rw [List.length_take_of_le (Nat.le_of_lt hi)]

theorem nameAt_singleton {segment : String} : NameAt [segment] i ↔ i = 0 ∧ IsName segment := by
  cases i <;> simp [NameAt]

theorem NameAt.of_append (h : NameAt (first ++ second) i) :
    NameAt first i ∨ ∃ k, i = first.length + k ∧ NameAt second k := by
  by_cases hi : i < first.length
  · rw [NameAt, List.getElem?_append_left hi] at h
    exact .inl h
  · rw [NameAt, List.getElem?_append_right (by omega)] at h
    exact .inr ⟨i - first.length, by omega, h⟩

theorem NameAt.append (h : NameAt first i) (second : List String) : NameAt (first ++ second) i := by
  rwa [NameAt, List.getElem?_append_left h.lt_length]

theorem Undone.append_right (h : Undone first i j) (second : List String) :
    Undone (first ++ second) i j := by
  obtain ⟨front, name, trip, rest, rfl, hn, ht, hi, hj⟩ := h
  exact ⟨front, name, trip, rest ++ second, by simp, hn, ht, hi, hj⟩

theorem Undone.append_left (h : Undone second i j) (first : List String) :
    Undone (first ++ second) (first.length + i) (first.length + j) := by
  obtain ⟨front, name, trip, rest, rfl, hn, ht, rfl, rfl⟩ := h
  refine ⟨first ++ front, name, trip, rest, by simp, hn, ht, List.length_append.symm, ?_⟩
  rw [List.length_append]
  omega

theorem Undone.eq_of_name {k : Nat} (h : Undone segments i j) (h' : Undone segments i k) :
    j = k := by
  obtain ⟨front, name, trip, rest, rfl, -, ht, rfl, rfl⟩ := h
  obtain ⟨front', name', trip', rest', he, -, ht', hi, rfl⟩ := h'
  obtain ⟨-, he⟩ := List.append_inj he hi
  rw [ht.eq_of_dots ht' (List.cons.inj he).2, hi]

theorem Undone.eq_of_dots {k : Nat} (h : Undone segments i j) (h' : Undone segments k j) :
    i = k := by
  obtain ⟨front, name, trip, rest, rfl, hn, ht, rfl, rfl⟩ := h
  obtain ⟨front', name', trip', rest', he, hn', ht', rfl, hj⟩ := h'
  rw [← List.cons_append, ← List.cons_append, ← List.append_assoc, ← List.append_assoc] at he
  have hlength : (front ++ name :: trip).length = (front' ++ name' :: trip').length := by
    simp only [List.length_append, List.length_cons]
    omega
  obtain ⟨he, -⟩ := List.append_inj he hlength
  rcases append_cons_cases he with heq | ⟨after, -, rfl⟩ | ⟨after, -, rfl⟩
  · rw [heq]
  · exact absurd ht' (ht.not_open hn')
  · exact absurd ht (ht'.not_open hn)

/-- On a round trip every name is matched. -/
theorem RoundTrip.exists_undone (h : RoundTrip trip) (hi : NameAt trip i) :
    ∃ j, Undone trip i j := by
  induction h generalizing i with
  | here => simp [NameAt] at hi
  | stay hn _ => exact absurd (nameAt_singleton.mp hi).2 hn
  | @back name inner hn hinner ih =>
    have hi : NameAt ([name] ++ (inner ++ [".."])) i := hi
    rcases hi.of_append with hname | ⟨k, rfl, hrest⟩
    · rw [(nameAt_singleton.mp hname).1]
      exact ⟨_, [], name, inner, [], rfl, hn, hinner, rfl, rfl⟩
    rcases hrest.of_append with hinner | ⟨_, -, hdots⟩
    · obtain ⟨j, hj⟩ := ih hinner
      exact ⟨_, (hj.append_right [".."]).append_left [name]⟩
    · exact absurd (nameAt_singleton.mp hdots).2 not_isName_dots
  | @append first second _ _ ih₁ ih₂ =>
    rcases hi.of_append with hfirst | ⟨k, rfl, hsecond⟩
    · obtain ⟨j, hj⟩ := ih₁ hfirst
      exact ⟨j, hj.append_right second⟩
    · obtain ⟨j, hj⟩ := ih₂ hsecond
      exact ⟨_, hj.append_left first⟩

theorem RoundTrip.not_kept (h : RoundTrip trip) : ¬ Kept trip i := fun hk =>
  let ⟨j, hj⟩ := h.exists_undone hk.1
  hk.2 j hj

theorem Kept.of_append (h : Kept (first ++ second) i) :
    Kept first i ∨ ∃ k, i = first.length + k ∧ Kept second k := by
  rcases h.1.of_append with hi | ⟨k, rfl, hi⟩
  · exact .inl ⟨hi, fun j hj => h.2 j (hj.append_right second)⟩
  · exact .inr ⟨k, rfl, hi, fun j hj => h.2 _ (hj.append_left first)⟩

theorem Kept.of_trip {segment : String} (h : Kept (front ++ segment :: trip) i)
    (ht : RoundTrip trip) : Kept front i ∨ i = front.length ∧ IsName segment := by
  rcases h.of_append with hfront | ⟨k, rfl, hrest⟩
  · exact .inl hfront
  have hrest : Kept ([segment] ++ trip) k := hrest
  rcases hrest.of_append with hsegment | ⟨_, -, htrip⟩
  · obtain ⟨rfl, hn⟩ := nameAt_singleton.mp hsegment.1
    exact .inr ⟨rfl, hn⟩
  · exact absurd htrip ht.not_kept

/-- A name stays as long as the walk does not come above where it is. -/
theorem Kept.append (h : Kept first i) (hs : NeverAbove second) : Kept (first ++ second) i := by
  refine ⟨h.1.append second, ?_⟩
  rintro j ⟨front, name, trip, rest, he, hn, ht, hi, rfl⟩
  obtain ⟨front', name', inner, rfl, hi', -⟩ := h.1.exists_split
  rw [List.append_assoc, List.cons_append] at he
  obtain ⟨rfl, hcons⟩ := List.append_inj he (hi'.symm.trans hi)
  obtain ⟨rfl, htrip⟩ := List.cons.inj hcons
  -- the dots stand in `second`, unless the round trip before them ends in `first`
  rcases List.append_eq_append_iff.mp htrip with ⟨after, rfl, hsecond⟩ | ⟨after, rfl, hb⟩
  · exact ht.not_neverAbove inner rest (hsecond ▸ hs)
  rcases List.cons_eq_append_iff.mp hb with ⟨-, hsecond⟩ | ⟨after, rfl, -⟩
  · exact RoundTrip.here.not_neverAbove [] rest (hsecond ▸ hs)
  · exact h.2 _ ⟨front', name', trip, after, rfl, hn, ht, hi', rfl⟩

/-- How a walk has come to the directory where it is: the names at `places` are those on the way
there, each with a round trip behind it. Before the first of them it may have been sent above the
root. -/
inductive Trail : List String → List Nat → Prop
  | root {trip : List String} : RoundTrip trip → Trail trip []
  | aboveRoot {segments trip : List String} : Trail segments [] → RoundTrip trip →
      Trail (segments ++ ".." :: trip) []
  | name {segments : List String} {places : List Nat} {name : String} {trip : List String} :
      Trail segments places → IsName name → RoundTrip trip →
      Trail (segments ++ name :: trip) (places ++ [segments.length])

theorem Trail.append (h : Trail segments places) (ht : RoundTrip trip) :
    Trail (segments ++ trip) places := by
  cases h with
  | root htrip => exact .root (htrip.append ht)
  | aboveRoot h htrip =>
    rw [List.append_assoc]
    exact .aboveRoot h (htrip.append ht)
  | name h hn htrip =>
    rw [List.append_assoc]
    exact .name h hn (htrip.append ht)

/-- Two dots close the last name on the way, if there is one. -/
theorem Trail.dots (h : Trail segments places) : Trail (segments ++ [".."]) places.dropLast := by
  cases h with
  | root htrip => exact .aboveRoot (.root htrip) .here
  | aboveRoot h htrip => exact .aboveRoot (.aboveRoot h htrip) .here
  | name h hn htrip =>
    rw [List.append_assoc, List.dropLast_concat, List.cons_append]
    exact h.append (.back hn htrip)

theorem exists_trail (segments : List String) : ∃ places, Trail segments places := by
  induction segments using List.reverseRecOn with
  | nil => exact ⟨[], .root .here⟩
  | append_singleton segments segment ih =>
    obtain ⟨places, h⟩ := ih
    rcases enter_cases [] segment with ⟨hn, -⟩ | ⟨rfl, -⟩ | ⟨hn, hd, -⟩
    · exact ⟨_, .name h hn .here⟩
    · exact ⟨_, h.dots⟩
    · exact ⟨places, h.append (.stay hn hd)⟩

theorem Trail.lt_length (h : Trail segments places) : ∀ i ∈ places, i < segments.length := by
  induction h with
  | root | aboveRoot => simp
  | name _ _ _ ih =>
    intro i hm
    rw [List.length_append, List.length_cons]
    rcases List.mem_append.mp hm with hm | hm
    · have := ih i hm
      omega
    · rw [List.mem_singleton.mp hm]
      omega

theorem Trail.pairwise (h : Trail segments places) : places.Pairwise (· < ·) := by
  induction h with
  | root | aboveRoot => exact List.Pairwise.nil
  | name h _ _ ih =>
    refine List.pairwise_append.mpr ⟨ih, List.pairwise_singleton _ _, fun i hm k hk => ?_⟩
    rw [List.mem_singleton.mp hk]
    exact h.lt_length i hm

/-- The names on the way are those that are left. -/
theorem Trail.normalize_eq (h : Trail segments places) :
    (normalize segments).map some = places.map (segments[·]?) := by
  induction h with
  | root htrip => rw [normalize, htrip.walk_eq]; rfl
  | @aboveRoot segments trip _ htrip ih =>
    have hnil : segments.foldl enter [] = [] := by simpa [normalize] using ih
    rw [normalize, List.foldl_append, hnil, List.foldl_cons, htrip.walk_eq]
    rfl
  | @name segments places name trip h hn htrip ih =>
    have hplaces : places.map ((segments ++ name :: trip)[·]?) = places.map (segments[·]?) :=
      List.map_congr_left fun i hm => List.getElem?_append_left (h.lt_length i hm)
    rw [normalize_name_trip hn htrip, List.map_append, List.map_append, hplaces, ih]
    simp

theorem Trail.kept (h : Trail segments places) (hi : i ∈ places) : Kept segments i := by
  induction h with
  | root | aboveRoot => exact absurd hi List.not_mem_nil
  | @name segments places name trip _ hn htrip ih =>
    rcases List.mem_append.mp hi with hi | hi
    · exact (ih hi).append ((neverAbove_singleton hn.ne_dots).append htrip.neverAbove)
    · rw [List.mem_singleton.mp hi]
      refine ⟨⟨name, by simp, hn⟩, ?_⟩
      rintro j ⟨front, name', trip', rest, he, -, ht, hi, -⟩
      obtain ⟨-, he⟩ := List.append_inj he hi
      rw [(List.cons.inj he).2] at htrip
      exact ht.not_neverAbove [] rest htrip.neverAbove

theorem Trail.mem_of_kept (h : Trail segments places) (hk : Kept segments i) : i ∈ places := by
  induction h generalizing i with
  | root htrip => exact absurd hk htrip.not_kept
  | aboveRoot _ htrip ih =>
    rcases hk.of_trip htrip with hk | ⟨-, hn⟩
    · exact ih hk
    · exact absurd hn not_isName_dots
  | name _ _ htrip ih =>
    rcases hk.of_trip htrip with hk | ⟨rfl, -⟩
    · exact List.mem_append_left _ (ih hk)
    · exact List.mem_concat_self

/-- Two dots match a name unless the walk is at the root when it comes to them. -/
theorem exists_undone_iff (before after : List String) :
    (∃ i, Undone (before ++ ".." :: after) i before.length) ↔ normalize before ≠ [] := by
  constructor
  · rintro ⟨i, front, name, trip, rest, he, hn, ht, -, hj⟩
    rw [← List.cons_append, ← List.append_assoc] at he
    have hlength : before.length = (front ++ name :: trip).length := by
      rw [List.length_append, List.length_cons]
      omega
    obtain ⟨rfl, -⟩ := List.append_inj he hlength
    rw [normalize_name_trip hn ht]
    exact List.append_ne_nil_of_right_ne_nil _ (List.cons_ne_nil _ _)
  · intro hne
    obtain ⟨places, h⟩ := exists_trail before
    have heq := h.normalize_eq
    cases h with
    | root | aboveRoot => exact absurd (List.map_eq_nil_iff.mp heq) hne
    | @name segments places name trip _ hn htrip =>
      refine ⟨_, segments, name, trip, after, by simp, hn, htrip, rfl, ?_⟩
      rw [List.length_append, List.length_cons]
      omega

/-- A walk can stop anywhere and go on from the directory it has come to. What it comes to consists
of names, stands for itself, and is found among the segments in the same order. A name is left at
just those places where no two dots match it. Each name and each two dots have at most one match,
and the dots without one are those that the walk meets at the root. -/
theorem normalize_keeps_unmatched :
    (∀ first second, normalize (first ++ second) = normalize (normalize first ++ second)) ∧
    ∀ segments,
      normalize (normalize segments) = normalize segments ∧
      (∀ name ∈ normalize segments, IsName name) ∧
      (normalize segments).Sublist segments ∧
      (∃ places : List Nat, places.Pairwise (· < ·) ∧ (∀ i, i ∈ places ↔ Kept segments i) ∧
        (normalize segments).map some = places.map (segments[·]?)) ∧
      (∀ i j k, Undone segments i j → Undone segments i k → j = k) ∧
      (∀ i j k, Undone segments i j → Undone segments k j → i = k) ∧
      ∀ before after, segments = before ++ ".." :: after →
        ((∃ i, Undone segments i before.length) ↔ normalize before ≠ []) := by
  refine ⟨normalize_append, fun segments => ?_⟩
  obtain ⟨places, h⟩ := exists_trail segments
  refine ⟨normalize_of_isName fun _ => isName_of_mem_normalize, fun _ => isName_of_mem_normalize,
    normalize_sublist segments,
    ⟨places, h.pairwise, fun _ => ⟨h.kept, h.mem_of_kept⟩, h.normalize_eq⟩,
    fun _ _ _ => Undone.eq_of_name, fun _ _ _ => Undone.eq_of_dots, ?_⟩
  rintro before after rfl
  exact exists_undone_iff before after

/-- A name inside the round trip that is undone with it, and two dots more at the root. -/
theorem normalize_keeps_unmatched_nested :
    let segments := ["a", "b", "..", " ", "..", "..", "c", "."]
    Undone segments 0 4 ∧ (∀ k, Undone segments 0 k → 4 = k) ∧ (∀ k, Undone segments k 4 → 0 = k) ∧
      (¬ ∃ i, Undone segments i 5) ∧ (∃ i, Kept segments i ∧ segments[i]? = some "c") ∧
      "c" ∈ normalize segments ∧ IsName "c" ∧ normalize segments = ["c"] := by
  intro segments
  have hname (name : String) (h : name = "a" ∨ name = "b" ∨ name = "c") : IsName name := by
    rcases h with rfl | rfl | rfl <;> exact ⟨by decide, by decide, by decide⟩
  have htrip : RoundTrip ["b", "..", " "] :=
    .append (.back (hname "b" (by decide)) .here) (.stay (fun h => absurd h.not_blank (by decide))
      (by decide))
  have hundone : Undone segments 0 4 :=
    ⟨[], "a", ["b", "..", " "], ["..", "c", "."], rfl, hname "a" (by decide), htrip, rfl, rfl⟩
  have hc : "c" ∈ normalize segments := by decide
  obtain ⟨-, hnames, -, ⟨places, -, hplaces, heq⟩, hright, hleft, hroot⟩ :=
    normalize_keeps_unmatched.2 segments
  have hkept : ∃ i, Kept segments i ∧ segments[i]? = some "c" := by
    have hm := List.mem_map_of_mem (f := some) hc
    rw [heq, List.mem_map] at hm
    obtain ⟨i, hi, hsome⟩ := hm
    exact ⟨i, (hplaces i).mp hi, hsome⟩
  refine ⟨hundone, fun _ => hright _ _ _ hundone, fun _ => hleft _ _ _ hundone, ?_, hkept, hc,
    hnames "c" hc, by decide⟩
  rw [show 5 = ["a", "b", "..", " ", ".."].length from rfl, hroot _ ["c", "."] rfl]
  decide

end TerminalShell.PathStyle
