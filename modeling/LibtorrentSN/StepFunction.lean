import Mathlib

/-!
# Step functions

A function on a linear order that is given by the places at which its value changes. It is changed on an interval
by putting a left part, which ends with the new value, before a right part, which goes on with the old one.
-/

namespace LibtorrentSN

namespace StepFunction

/-- The value from a place on, up to the next one. -/
structure Breakpoint (A V : Type*) where
  start : A
  access : V
  deriving DecidableEq

variable {A V : Type*} [LinearOrder A] {l l' left right : List (Breakpoint A V)} {r s : Breakpoint A V}
  {x first last : A} {v : V}

def Sorted (l : List (Breakpoint A V)) : Prop := l.Pairwise fun r s => r.start < s.start

/-- No breakpoint has the value of the one before it. -/
structure Reduced (l : List (Breakpoint A V)) : Prop where
  sorted : Sorted l
  changes : l.IsChain fun r s => r.access ≠ s.access

/-- The value of the last breakpoint that is not behind the place. -/
def valueAt (l : List (Breakpoint A V)) (x : A) : Option V :=
  ((l.filter fun r => r.start ≤ x).getLast?).map Breakpoint.access

theorem valueAt_append_of_lt (h : ∀ r ∈ l', x < r.start) : valueAt (l ++ l') x = valueAt l x := by
  have hnone : (l'.filter fun r => r.start ≤ x) = [] :=
    List.filter_eq_nil_iff.mpr fun r hr => by simpa using h r hr
  rw [valueAt, List.filter_append, hnone, List.append_nil, valueAt]

theorem valueAt_append_of_le (hr : r ∈ l') (hle : r.start ≤ x) : valueAt (l ++ l') x = valueAt l' x := by
  have hsome : (l'.filter fun r => r.start ≤ x) ≠ [] :=
    List.ne_nil_of_mem (List.mem_filter.mpr ⟨hr, decide_eq_true hle⟩)
  rw [valueAt, List.filter_append, List.getLast?_append_of_ne_nil _ hsome, valueAt]

theorem valueAt_of_forall_le (h : ∀ r ∈ l, r.start ≤ x) : valueAt l x = l.getLast?.map Breakpoint.access := by
  rw [valueAt, List.filter_eq_self.mpr fun r hr => decide_eq_true (h r hr)]

theorem Sorted.of_append (h : Sorted (l ++ l')) : Sorted l ∧ Sorted l' ∧ ∀ r ∈ l, ∀ s ∈ l', r.start < s.start :=
  List.pairwise_append.mp h

/-- Before the first breakpoint there is no value. -/
theorem Sorted.head_le (h : Sorted (r :: l)) (hx : valueAt (r :: l) x = some v) : r.start ≤ x := by
  by_contra hlt
  have hall : ∀ s ∈ r :: l, x < s.start := by
    intro s hs
    rcases List.mem_cons.mp hs with rfl | hs
    · exact not_le.mp hlt
    · exact (not_le.mp hlt).trans (List.rel_of_pairwise_cons h hs)
  have hnone := @valueAt_append_of_lt A V _ [] (r :: l) x hall
  rw [List.nil_append, hx] at hnone
  cases hnone

theorem Sorted.valueAt_start (h : Sorted l) (hr : r ∈ l) : valueAt l r.start = some r.access := by
  obtain ⟨l₁, l₂, rfl⟩ := List.append_of_mem hr
  obtain ⟨-, h₂, -⟩ := h.of_append
  rw [← List.singleton_append, ← List.append_assoc, valueAt_append_of_lt fun s hs => List.rel_of_pairwise_cons h₂ hs,
    valueAt_append_of_le (List.mem_singleton_self r) le_rfl, valueAt_of_forall_le (by simp)]
  rfl

theorem Sorted.eq_of_start (h : Sorted l) (hr : r ∈ l) (hs : s ∈ l) (heq : r.start = s.start) : r = s := by
  obtain ⟨l₁, l₂, rfl⟩ := List.append_of_mem hr
  obtain ⟨-, h₂, hlt⟩ := h.of_append
  rcases List.mem_append.mp hs with hs | hs
  · exact absurd (hlt s hs r List.mem_cons_self) (by rw [heq]; exact lt_irrefl _)
  · rcases List.mem_cons.mp hs with hs | hs
    · exact hs.symm
    · exact absurd (List.rel_of_pairwise_cons h₂ hs) (by rw [heq]; exact lt_irrefl _)

theorem Reduced.of_append (h : Reduced (l ++ l')) : Reduced l ∧ Reduced l' := by
  obtain ⟨hsorted, hsorted', -⟩ := h.sorted.of_append
  obtain ⟨hchanges, hchanges', -⟩ := List.isChain_append.mp h.changes
  exact ⟨⟨hsorted, hchanges⟩, ⟨hsorted', hchanges'⟩⟩

theorem Reduced.concat (h : Reduced l) (hlt : ∀ r ∈ l, r.start < s.start) (hne : ∀ r ∈ l.getLast?, r.access ≠ s.access) :
    Reduced (l ++ [s]) := by
  refine ⟨List.pairwise_append.mpr ⟨h.sorted, List.pairwise_singleton _ s, fun r hr t ht => ?_⟩,
    List.isChain_append.mpr ⟨h.changes, List.isChain_singleton s, fun r hr t ht => ?_⟩⟩
  · rw [List.mem_singleton.mp ht]
    exact hlt r hr
  · rw [← Option.some.inj ht]
    exact hne r hr

theorem Reduced.cons (h : Reduced l) (hlt : ∀ r ∈ l, s.start < r.start) (hne : ∀ r ∈ l.head?, s.access ≠ r.access) :
    Reduced (s :: l) :=
  ⟨List.pairwise_cons.mpr ⟨hlt, h.sorted⟩, List.isChain_cons.mpr ⟨hne, h.changes⟩⟩

/-- Behind a breakpoint the value has changed before the next breakpoints. -/
theorem Reduced.exists_change (h : Reduced l) (hr : r ∈ l) (hs : s ∈ l) (hlt : r.start < s.start) :
    ∃ y, r.start < y ∧ y ≤ s.start ∧ valueAt l y ≠ valueAt l r.start := by
  obtain ⟨l₁, l₂, rfl⟩ := List.append_of_mem hr
  obtain ⟨-, h₂, hbefore⟩ := h.sorted.of_append
  have hs₂ : s ∈ l₂ := by
    rcases List.mem_append.mp hs with hs | hs
    · exact absurd (hbefore s hs r List.mem_cons_self) hlt.asymm
    · exact (List.mem_cons.mp hs).resolve_left fun heq => by rw [heq] at hlt; exact lt_irrefl _ hlt
  cases l₂ with
  | nil => exact absurd hs₂ List.not_mem_nil
  | cons t l₂ =>
    refine ⟨t.start, List.rel_of_pairwise_cons h₂ List.mem_cons_self, ?_, ?_⟩
    · rcases List.mem_cons.mp hs₂ with rfl | hs₂
      · exact le_rfl
      · exact (List.rel_of_pairwise_cons h₂.of_cons hs₂).le
    · rw [h.sorted.valueAt_start (by simp), h.sorted.valueAt_start (by simp)]
      have hne := (List.isChain_append_cons_cons.mp h.changes).2.1
      exact fun heq => hne (Option.some.inj heq).symm

/-- No list of intervals on which the function is constant covers all places with fewer intervals. -/
theorem Reduced.length_le (h : Reduced l) {parts : List (A × A)}
    (hcover : ∀ x, ∃ p ∈ parts, p.1 ≤ x ∧ x ≤ p.2)
    (hconst : ∀ p ∈ parts, ∀ x y, p.1 ≤ x → x ≤ p.2 → p.1 ≤ y → y ≤ p.2 → valueAt l x = valueAt l y) :
    l.length ≤ parts.length := by
  choose part hpart hlow hhigh using hcover
  have hne : ∀ r ∈ l, ∀ s ∈ l, r.start < s.start → part r.start ≠ part s.start := by
    intro r hr s hs hlt heq
    obtain ⟨y, hy, hys, hchange⟩ := h.exists_change hr hs hlt
    refine hchange (hconst _ (hpart r.start) y r.start ?_ ?_ (hlow _) (hhigh _))
    · exact (hlow r.start).trans hy.le
    · exact hys.trans (heq ▸ hhigh s.start)
  have hnodup : (l.map fun r => part r.start).Nodup := by
    refine List.Nodup.map_on (fun r hr s hs heq => ?_) (h.sorted.imp fun hlt => ne_of_apply_ne Breakpoint.start hlt.ne)
    rcases lt_trichotomy r.start s.start with hlt | hsame | hlt
    · exact absurd heq (hne r hr s hs hlt)
    · exact h.sorted.eq_of_start hr hs hsame
    · exact absurd heq.symm (hne s hs r hr hlt)
  have hsub : (l.map fun r => part r.start) ⊆ parts := by
    intro p hp
    obtain ⟨r, -, rfl⟩ := List.mem_map.mp hp
    exact hpart r.start
  have hle := (List.subperm_of_subset hnodup hsub).length_le
  rwa [List.length_map] at hle

/-! ## Reduced lists are unique -/

theorem valueAt_cons_of_le (h : ∃ s ∈ l, s.start ≤ x) : valueAt (r :: l) x = valueAt l x := by
  obtain ⟨s, hs, hle⟩ := h
  exact @valueAt_append_of_le A V _ [r] l s x hs hle

theorem valueAt_eq_none (h : ¬ ∃ s ∈ l, s.start ≤ x) : valueAt l x = none :=
  @valueAt_append_of_lt A V _ [] l x fun s hs => not_le.mp fun hle => h ⟨s, hs, hle⟩

theorem Reduced.of_cons (h : Reduced (r :: l)) : Reduced l := (@Reduced.of_append A V _ [r] l h).2

/-- The next value cannot begin earlier in one of the lists. -/
theorem Reduced.begun (h : Reduced (r :: l)) (heq : ∀ x, valueAt (r :: l) x = valueAt (r :: l') x)
    (hx : ∃ s ∈ l, s.start ≤ x) : ∃ s ∈ l', s.start ≤ x := by
  by_contra hnone
  obtain ⟨s, hs, hsx⟩ := hx
  cases l with
  | nil => exact absurd hs List.not_mem_nil
  | cons t l =>
    have hts : t.start ≤ s.start := by
      rcases List.mem_cons.mp hs with rfl | hs
      · exact le_rfl
      · exact (List.rel_of_pairwise_cons h.of_cons.sorted hs).le
    have hlt : ∀ u ∈ l', t.start < u.start := fun u hu =>
      (hts.trans hsx).trans_lt (not_le.mp fun hle => hnone ⟨u, hu, hle⟩)
    have hrt : r.start < t.start := List.rel_of_pairwise_cons h.sorted List.mem_cons_self
    have hone := @valueAt_append_of_lt A V _ [r] l' t.start hlt
    have hvalue := heq t.start
    rw [h.sorted.valueAt_start (List.mem_cons_of_mem r List.mem_cons_self), ← List.singleton_append, hone,
      valueAt_of_forall_le fun u hu => by rw [List.mem_singleton.mp hu]; exact hrt.le] at hvalue
    exact (List.isChain_cons_cons.mp h.changes).1 (Option.some.inj hvalue).symm

/-- There is one reduced list for a function. -/
theorem Reduced.eq_of_valueAt (h : Reduced l) (h' : Reduced l') (heq : ∀ x, valueAt l x = valueAt l' x) : l = l' := by
  induction l generalizing l' with
  | nil =>
    cases l' with
    | nil => rfl
    | cons r' l' => exact absurd ((heq r'.start).trans (h'.sorted.valueAt_start List.mem_cons_self)) (Option.some_ne_none _).symm
  | cons r l ih =>
    cases l' with
    | nil => exact absurd ((heq r.start).symm.trans (h.sorted.valueAt_start List.mem_cons_self)) (Option.some_ne_none _).symm
    | cons r' l' =>
      have hr := h.sorted.valueAt_start List.mem_cons_self
      have hr' := h'.sorted.valueAt_start List.mem_cons_self
      have hstart : r.start = r'.start :=
        le_antisymm (h.sorted.head_le ((heq _).trans hr')) (h'.sorted.head_le ((heq _).symm.trans hr))
      have haccess : r.access = r'.access :=
        Option.some.inj (hr.symm.trans ((heq _).trans (by rw [hstart]; exact hr')))
      obtain rfl : r = r' := by
        cases r
        cases r'
        exact congrArg₂ Breakpoint.mk hstart haccess
      refine congrArg (r :: ·) (ih h.of_cons h'.of_cons fun x => ?_)
      by_cases hx : ∃ s ∈ l, s.start ≤ x
      · rw [← valueAt_cons_of_le hx, ← valueAt_cons_of_le (h.begun heq hx), heq]
      · rw [valueAt_eq_none hx, valueAt_eq_none fun hx' => hx (h'.begun (fun y => (heq y).symm) hx')]

/-! ## Changing the function on an interval -/

/-- A left part for a value from `first` on. -/
structure EndsWith (l : List (Breakpoint A V)) (first : A) (v : V) (left : List (Breakpoint A V)) : Prop where
  reduced : Reduced left
  le_first : ∀ r ∈ left, r.start ≤ first
  last_value : left.getLast?.map Breakpoint.access = some v
  before : ∀ x < first, valueAt left x = valueAt l x

/-- A right part behind a value up to `last`. -/
structure GoesOn (l : List (Breakpoint A V)) (last : A) (v : V) (right : List (Breakpoint A V)) : Prop where
  reduced : Reduced right
  last_lt : ∀ r ∈ right, last < r.start
  head_value : ∀ r ∈ right.head?, r.access ≠ v
  behind : ∀ r ∈ right, ∀ x, r.start ≤ x → valueAt right x = valueAt l x
  between : ∀ x, last < x → (∀ r ∈ right, x < r.start) → valueAt l x = some v

theorem EndsWith.reduced_append (h : EndsWith l first v left) (h' : GoesOn l last v right) (hle : first ≤ last) :
    Reduced (left ++ right) := by
  refine ⟨List.pairwise_append.mpr ⟨h.reduced.sorted, h'.reduced.sorted, fun r hr s hs => ?_⟩,
    List.isChain_append.mpr ⟨h.reduced.changes, h'.reduced.changes, fun r hr s hs heq => ?_⟩⟩
  · exact (h.le_first r hr).trans_lt (hle.trans_lt (h'.last_lt s hs))
  · have hlast := h.last_value
    rw [Option.mem_def.mp hr] at hlast
    exact h'.head_value s hs (heq.symm.trans (Option.some.inj hlast))

theorem EndsWith.valueAt_append (h : EndsWith l first v left) (h' : GoesOn l last v right) (hle : first ≤ last)
    (x : A) : valueAt (left ++ right) x = if first ≤ x ∧ x ≤ last then some v else valueAt l x := by
  have hleft : first ≤ x → valueAt left x = some v := fun hx => by
    rw [valueAt_of_forall_le fun r hr => (h.le_first r hr).trans hx, h.last_value]
  rcases lt_or_ge x first with hx | hx
  · rw [if_neg fun hin => absurd hin.1 (not_le.mpr hx),
      valueAt_append_of_lt fun r hr => hx.trans (hle.trans_lt (h'.last_lt r hr)), h.before x hx]
  rcases le_or_gt x last with hx' | hx'
  · rw [if_pos ⟨hx, hx'⟩, valueAt_append_of_lt fun r hr => hx'.trans_lt (h'.last_lt r hr), hleft hx]
  rw [if_neg fun hin => absurd hin.2 (not_le.mpr hx')]
  by_cases hright : ∃ r ∈ right, r.start ≤ x
  · obtain ⟨r, hr, hrx⟩ := hright
    rw [valueAt_append_of_le hr hrx, h'.behind r hr x hrx]
  · have hlt : ∀ r ∈ right, x < r.start := fun r hr => not_le.mp fun hle => hright ⟨r, hr, hle⟩
    rw [valueAt_append_of_lt hlt, hleft hx, h'.between x hx' hlt]

end StepFunction

end LibtorrentSN
