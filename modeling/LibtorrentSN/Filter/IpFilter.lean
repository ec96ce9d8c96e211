import Mathlib.Data.List.TakeWhile
import LibtorrentSN.StepFunction
import LibtorrentSN.Filter.Address

/-!
# The filters of addresses and ports

A filter holds the places where the access changes, in a set in the order of the addresses
(`src/ip_filter.cpp`). An iterator of the set is a position in the list of its members.
-/

namespace LibtorrentSN

namespace Filter

open StepFunction

/-- `range`. Its end is given by the next one. -/
abbrev Range (A : Type) := Breakpoint A UInt32

variable {A : Type} {l pre mid post left right : List (Range A)} {p r : Range A}

/-- The flags of the range with this index. -/
def accessAt (l : List (Range A)) (i : ℕ) : UInt32 := (l[i]?.map Breakpoint.access).getD 0

/-- The place where a condition ends to hold. -/
theorem length_takeWhile_append {P : Range A → Bool} (hleft : ∀ r ∈ left, P r) (hright : ∀ r ∈ right.head?, ¬ P r) :
    ((left ++ right).takeWhile P).length = left.length := by
  rw [List.takeWhile_append_of_pos hleft]
  cases right with
  | nil => rw [List.takeWhile_nil, List.append_nil]
  | cons r right => rw [List.takeWhile_cons_of_neg (hright r rfl), List.append_nil]

/-- The range in the middle. -/
theorem getElem?_append_cons : (pre ++ p :: post)[pre.length]? = some p := by
  rw [List.getElem?_append_right le_rfl, Nat.sub_self]
  rfl

/-- Its flags. -/
theorem accessAt_append_cons : accessAt (pre ++ p :: post) pre.length = p.access := by
  rw [accessAt, getElem?_append_cons]
  rfl

/-- The ranges around those that are left out. -/
theorem take_append_drop : (pre ++ p :: (mid ++ post)).take (pre.length + 1) ++
    (pre ++ p :: (mid ++ post)).drop (pre.length + 1 + mid.length) = pre ++ p :: post := by
  have heq : pre ++ p :: (mid ++ post) = (pre ++ p :: mid) ++ post := by rw [List.append_assoc, List.cons_append]
  have hdrop : (pre ++ p :: (mid ++ post)).drop (pre.length + 1 + mid.length) = post := by
    rw [heq]
    exact List.drop_left' (by rw [List.length_append, List.length_cons]; omega)
  have htake : (pre ++ p :: (mid ++ post)).take (pre.length + 1) = pre ++ [p] := by
    rw [← List.singleton_append, ← List.append_assoc]
    exact List.take_left' (by rw [List.length_append, List.length_singleton])
  rw [hdrop, htake, List.append_assoc, List.singleton_append]

/-- The flags of the last range before. -/
theorem accessAt_append {v : UInt32} (h : left.getLast?.map Breakpoint.access = some v) :
    accessAt (left ++ right) (left.length - 1) = v := by
  rw [List.getLast?_eq_getElem?] at h
  have hlt : left.length - 1 < left.length := by
    obtain ⟨r, hr, -⟩ := Option.map_eq_some_iff.mp h
    exact (List.getElem?_eq_some_iff.mp hr).1
  rw [accessAt, List.getElem?_append_left hlt, h]
  rfl

variable [LinearOrder A]

section Model

variable (l : List (Range A)) (i j : ℕ) (first last : A) (flags : UInt32)

/-- `std::upper_bound` -/
def upperBound (x : A) : ℕ := (l.takeWhile fun r => r.start ≤ x).length

/-- `std::set::insert`, with the position of the member. -/
def insert (r : Range A) : List (Range A) × ℕ :=
  let k := (l.takeWhile fun s => s.start < r.start).length
  if l[k]?.map Breakpoint.start = some r.start then (l, k) else (l.take k ++ r :: l.drop k, k)

/-- What is covered is erased, and the access is set at the first address. The second iterator stays at its range. -/
def cover (firstAccess : UInt32) : List (Range A) × ℕ :=
  let (l, j) := if i ≠ j then (l.take (i + 1) ++ l.drop j, i + 1) else (l, j)
  if l[i]?.map Breakpoint.start = some first then (l.set i ⟨first, flags⟩, j)
  else if firstAccess ≠ flags then
    let (l', _) := insert l ⟨first, flags⟩
    (l', j + (l'.length - l.length))
  else (l, j)

/-- The part of `add_rule` up to the first address and what is covered. -/
def addLeft : List (Range A) × ℕ :=
  let firstAccess := accessAt l i
  if l[i]?.map Breakpoint.start ≠ some first ∧ firstAccess ≠ flags then
    let (l', i) := insert l ⟨first, flags⟩
    cover l' i (j + (l'.length - l.length)) first flags firstAccess
  else if i ≠ 0 ∧ accessAt l (i - 1) = flags then cover l (i - 1) j first flags (accessAt l (i - 1))
  else cover l i j first flags firstAccess

variable [Addr A]

/-- Whether addresses remain between the rule and the next range. -/
def remains (next : Option (Range A)) : Bool :=
  match next with
  | some r => Addr.minusOne r.start ≠ last
  | none => last ≠ Addr.maxAddr

/-- The rest, which inserts what remains to the right and merges there. -/
def addRight (lastAccess : UInt32) : List (Range A) :=
  let (l, j) :=
    if remains last l[j]? ∧ lastAccess ≠ flags then insert l ⟨Addr.plusOne last, lastAccess⟩ else (l, j)
  if l[j]?.map Breakpoint.access = some flags then l.eraseIdx j else l

/-- `add_rule` -/
def addRule : List (Range A) :=
  let i := upperBound l first
  let j := upperBound l last
  let i := if i ≠ 0 then i - 1 else i
  let lastAccess := accessAt l (j - 1)
  let (l, j) := addLeft l i j first flags
  addRight l j last flags lastAccess

/-- `access` -/
def access (addr : A) : UInt32 :=
  let i := upperBound l addr
  let i := if i ≠ 0 then i - 1 else i
  accessAt l i

/-- `ip_range` -/
structure IpRange (A : Type) where
  first : A
  last : A
  flags : UInt32
  deriving DecidableEq

/-- `export_filter` -/
def exportFilter : List (Range A) → List (IpRange A)
  | [] => []
  | r :: rest =>
    ⟨r.start, (rest.head?.map fun s => Addr.minusOne s.start).getD Addr.maxAddr, r.access⟩ :: exportFilter rest

end Model

/-- The arguments of a call of `add_rule`. -/
structure Rule (A : Type) [LinearOrder A] where
  first : A
  last : A
  flags : UInt32
  first_le : first ≤ last

/-- A new filter, and a filter after some rules. -/
def filterOf [Addr A] (rules : List (Rule A)) : List (Range A) :=
  rules.foldl (fun l rule => addRule l rule.first rule.last rule.flags) [⟨Addr.zero, 0⟩]

/-- The flags of the last rule for the address. -/
def lastFlags (rules : List (Rule A)) (addr : A) : UInt32 :=
  ((rules.reverse.find? fun rule => rule.first ≤ addr ∧ addr ≤ rule.last).map Rule.flags).getD 0

variable {first last x : A} {flags : UInt32}

/-- The first range that begins behind the address. -/
theorem upperBound_append (hleft : ∀ r ∈ left, r.start ≤ x) (hright : ∀ r ∈ right, x < r.start) :
    upperBound (left ++ right) x = left.length :=
  length_takeWhile_append (fun r hr => decide_eq_true (hleft r hr)) fun r hr => by
    simpa using hright r (List.mem_of_mem_head? hr)

/-- A range is put in its place. -/
theorem insert_append (hleft : ∀ s ∈ left, s.start < r.start) (hright : ∀ s ∈ right, r.start < s.start) :
    insert (left ++ right) r = (left ++ r :: right, left.length) := by
  have hlength : ((left ++ right).takeWhile fun s => s.start < r.start).length = left.length :=
    length_takeWhile_append (fun s hs => decide_eq_true (hleft s hs)) fun s hs => by
      simpa using (hright s (List.mem_of_mem_head? hs)).le
  have hfresh : (left ++ right)[left.length]?.map Breakpoint.start ≠ some r.start := by
    rw [List.getElem?_append_right le_rfl, Nat.sub_self]
    cases right with
    | nil => simp
    | cons s right =>
      intro heq
      exact (hright s List.mem_cons_self).ne (Option.some.inj heq).symm
  rw [insert, hlength, if_neg hfresh, List.take_left, List.drop_left]

/-- The set around the rule: the range with the first address in it, those that start inside, those behind. -/
structure Around (l : List (Range A)) (first last : A) (pre : List (Range A)) (p : Range A)
    (mid post : List (Range A)) : Prop where
  eq : l = pre ++ p :: (mid ++ post)
  start_le : p.start ≤ first
  inside : ∀ r ∈ mid, first < r.start ∧ r.start ≤ last
  behind : ∀ r ∈ post, last < r.start

/-- The members that are not behind an address, and those that are. -/
theorem exists_split (h : Sorted l) (x : A) : ∃ left right, l = left ++ right ∧ (∀ r ∈ left, r.start ≤ x) ∧
    ∀ r ∈ right, x < r.start := by
  refine ⟨l.takeWhile fun r => r.start ≤ x, l.dropWhile fun r => r.start ≤ x, (List.takeWhile_append_dropWhile).symm,
    fun r hr => by simpa using List.mem_takeWhile_imp hr, fun r hr => ?_⟩
  induction l with
  | nil => cases hr
  | cons s l ih =>
    by_cases hs : s.start ≤ x
    · rw [List.dropWhile_cons, if_pos (decide_eq_true hs)] at hr
      exact ih h.of_cons hr
    · rw [List.dropWhile_cons, if_neg (by simpa using hs)] at hr
      have hlt := not_le.mp hs
      rcases List.mem_cons.mp hr with rfl | hr
      · exact hlt
      · exact hlt.trans (List.rel_of_pairwise_cons h hr)

/-- The ranges around those of a rule. -/
theorem exists_around (h : Sorted l) (last : A) (hhead : ∃ r ∈ l, r.start ≤ first) :
    ∃ pre p mid post, Around l first last pre p mid post := by
  obtain ⟨left, right, rfl, hleft, hright⟩ := exists_split h first
  obtain ⟨mid, post, rfl, hmid, hpost⟩ := exists_split h.of_append.2.1 last
  have hne : left ≠ [] := by
    rintro rfl
    obtain ⟨r, hr, hrx⟩ := hhead
    exact absurd (hright r hr) (not_lt.mpr hrx)
  refine ⟨left.dropLast, left.getLast hne, mid, post, ?_, hleft _ (List.getLast_mem hne), fun r hr => ?_, hpost⟩
  · rw [← List.singleton_append, ← List.append_assoc left.dropLast, List.dropLast_append_getLast hne]
  · exact ⟨hright r (List.mem_append_left _ hr), hmid r hr⟩

/-! ## The parts of a rule -/

namespace Around

/-- Where the rule begins. -/
theorem upperBound_first (h : Around l first last pre p mid post) (hsorted : Sorted l) (hle : first ≤ last) :
    upperBound l first = pre.length + 1 := by
  obtain ⟨rfl, hp, hmid, hpost⟩ := h
  have hpre := hsorted.of_append.2.2
  rw [← List.singleton_append, ← List.append_assoc, upperBound_append, List.length_append, List.length_singleton]
  · intro r hr
    rcases List.mem_append.mp hr with hr | hr
    · exact (hpre r hr p List.mem_cons_self).le.trans hp
    · rw [List.mem_singleton.mp hr]
      exact hp
  · intro r hr
    rcases List.mem_append.mp hr with hr | hr
    · exact (hmid r hr).1
    · exact hle.trans_lt (hpost r hr)

/-- Where it ends. -/
theorem upperBound_last (h : Around l first last pre p mid post) (hsorted : Sorted l) (hle : first ≤ last) :
    upperBound l last = pre.length + 1 + mid.length := by
  obtain ⟨rfl, hp, hmid, hpost⟩ := h
  have hpre := hsorted.of_append.2.2
  have heq : pre ++ p :: (mid ++ post) = (pre ++ p :: mid) ++ post := by rw [List.append_assoc, List.cons_append]
  rw [heq, upperBound_append _ hpost, List.length_append, List.length_cons]
  · omega
  · intro r hr
    rcases List.mem_append.mp hr with hr | hr
    · exact (hpre r hr p List.mem_cons_self).le.trans (hp.trans hle)
    · rcases List.mem_cons.mp hr with rfl | hr
      · exact hp.trans hle
      · exact (hmid r hr).2

/-- Before the rule only the members up to the first address count. -/
theorem valueAt_before (h : Around l first last pre p mid post) (hle : first ≤ last) (hx : x < first) :
    valueAt l x = valueAt (pre ++ [p]) x := by
  obtain ⟨rfl, -, hmid, hpost⟩ := h
  rw [← List.singleton_append, ← List.append_assoc]
  refine valueAt_append_of_lt fun r hr => ?_
  rcases List.mem_append.mp hr with hr | hr
  · exact hx.trans (hmid r hr).1
  · exact hx.trans (hle.trans_lt (hpost r hr))

end Around

/-- The range that begins with the rule gives way to it. -/
theorem cover_start {firstAccess : UInt32} (hstart : p.start = first) :
    cover (pre ++ p :: (mid ++ post)) pre.length (pre.length + 1 + mid.length) first flags firstAccess =
      (pre ++ ⟨first, flags⟩ :: post, pre.length + 1) := by
  have hne : pre.length ≠ pre.length + 1 + mid.length := by omega
  have hset : (pre ++ p :: post).set pre.length ⟨first, flags⟩ = pre ++ ⟨first, flags⟩ :: post := by
    rw [List.set_append_right _ _ le_rfl, Nat.sub_self, List.set_cons_zero]
  rw [cover]
  simp only [if_pos hne, take_append_drop, getElem?_append_cons, Option.map_some, hstart, if_true, hset]

/-- A range that begins before it stays. -/
theorem cover_other (hstart : p.start ≠ first) :
    cover (pre ++ p :: (mid ++ post)) pre.length (pre.length + 1 + mid.length) first flags flags =
      (pre ++ p :: post, pre.length + 1) := by
  have hne : pre.length ≠ pre.length + 1 + mid.length := by omega
  rw [cover]
  simp only [if_pos hne, take_append_drop, getElem?_append_cons, Option.map_some, Option.some.injEq, hstart, if_false,
    ne_eq, not_true_eq_false]

namespace Around

variable (h : Around l first last pre p mid post) (hred : Reduced l) (hle : first ≤ last)

include h hred

/-- The ranges up to the rule. -/
theorem reduced_pre : Reduced (pre ++ [p]) := by
  obtain ⟨rfl, -⟩ := h
  rw [← List.singleton_append, ← List.append_assoc] at hred
  exact hred.of_append.1

/-- They begin before its first one. -/
theorem pre_lt (hr : r ∈ pre) : r.start < p.start :=
  (h.reduced_pre hred).sorted.of_append.2.2 r hr p (List.mem_singleton_self p)

/-- Neighbours have other flags. -/
theorem last_ne (hr : r ∈ pre.getLast?) : r.access ≠ p.access :=
  (List.isChain_append.mp (h.reduced_pre hred).changes).2.2 r hr p rfl

include hle

/-- A new range ends the one before it. -/
theorem addLeft_new (hstart : p.start ≠ first) (haccess : p.access ≠ flags) :
    ∃ left, addLeft l pre.length (pre.length + 1 + mid.length) first flags = (left ++ post, left.length) ∧
      EndsWith l first flags left := by
  have hlt : ∀ r ∈ pre ++ [p], r.start < first := by
    intro r hr
    rcases List.mem_append.mp hr with hr | hr
    · exact (h.pre_lt hred hr).trans_le h.start_le
    · rw [List.mem_singleton.mp hr]
      exact lt_of_le_of_ne h.start_le hstart
  refine ⟨pre ++ [p] ++ [⟨first, flags⟩], ?_, (h.reduced_pre hred).concat hlt ?_, fun r hr => ?_, ?_, fun x hx => ?_⟩
  · obtain ⟨rfl, -, hmid, hpost⟩ := h
    have hins : insert (pre ++ p :: (mid ++ post)) ⟨first, flags⟩ =
        (pre ++ [p] ++ ⟨first, flags⟩ :: (mid ++ post), (pre ++ [p]).length) := by
      rw [← List.singleton_append, ← List.append_assoc]
      refine insert_append hlt fun r hr => ?_
      rcases List.mem_append.mp hr with hr | hr
      · exact (hmid r hr).1
      · exact hle.trans_lt (hpost r hr)
    have hlen : pre.length + 1 + mid.length + ((pre ++ [p] ++ ⟨first, flags⟩ :: (mid ++ post)).length -
        (pre ++ p :: (mid ++ post)).length) = (pre ++ [p]).length + 1 + mid.length := by
      simp only [List.length_append, List.length_cons, List.length_nil]
      omega
    rw [addLeft, accessAt_append_cons, getElem?_append_cons, Option.map_some]
    dsimp only
    rw [if_pos ⟨fun heq => hstart (Option.some.inj heq), haccess⟩, hins]
    dsimp only
    rw [hlen, cover_start rfl, List.append_assoc (pre ++ [p]), @List.length_append _ (pre ++ [p])]
    rfl
  · intro r hr
    rw [List.getLast?_concat] at hr
    rw [← Option.some.inj hr]
    exact haccess
  · rcases List.mem_append.mp hr with hr | hr
    · exact (hlt r hr).le
    · rw [List.mem_singleton.mp hr]
  · rw [List.getLast?_concat]
    rfl
  · rw [valueAt_append_of_lt fun r hr => ?_, h.valueAt_before hle hx]
    rw [List.mem_singleton.mp hr]
    exact hx

/-- The range before the first address has the flags already, so that it goes on. -/
theorem addLeft_merge (hnew : ¬ (p.start ≠ first ∧ p.access ≠ flags)) {q : Range A} (hq : q ∈ pre.getLast?)
    (haccess : q.access = flags) :
    ∃ left, addLeft l pre.length (pre.length + 1 + mid.length) first flags = (left ++ post, left.length) ∧
      EndsWith l first flags left := by
  have hstart : p.start = first := by
    by_contra hne
    exact h.last_ne hred hq (haccess.trans (not_not.mp fun hne' => hnew ⟨hne, fun heq => hne' heq.symm⟩))
  have hlt : ∀ r ∈ pre, r.start < first := fun r hr => hstart ▸ h.pre_lt hred hr
  refine ⟨pre, ?_, (h.reduced_pre hred).of_append.1, fun r hr => (hlt r hr).le, ?_, fun x hx => ?_⟩
  · obtain ⟨pre', rfl⟩ := List.getLast?_eq_some_iff.mp hq
    have hqstart : q.start ≠ first := (hlt q (by simp)).ne
    have hlast : accessAt (pre' ++ [q] ++ p :: (mid ++ post)) ((pre' ++ [q]).length - 1) = flags :=
      accessAt_append (by rw [List.getLast?_concat, Option.map_some, haccess])
    have hcover := @cover_other A pre' (p :: mid) post q _ first flags hqstart
    obtain ⟨rfl, -⟩ := h
    rw [addLeft, accessAt_append_cons, getElem?_append_cons, Option.map_some]
    dsimp only
    rw [if_neg fun hc => hnew ⟨fun heq => hc.1 (congrArg some heq), hc.2⟩, if_pos ⟨by simp, hlast⟩, hlast]
    have heq : pre' ++ [q] ++ p :: (mid ++ post) = pre' ++ q :: (p :: mid ++ post) := by
      rw [List.append_assoc, List.singleton_append, List.cons_append]
    have hi : (pre' ++ [q]).length - 1 = pre'.length := by rw [List.length_append]; rfl
    have hj : (pre' ++ [q]).length + 1 + mid.length = pre'.length + 1 + (p :: mid).length := by
      simp only [List.length_append, List.length_cons, List.length_nil]
      omega
    rw [heq, hi, hj, hcover, List.append_assoc, List.length_append]
    rfl
  · rw [Option.mem_def.mp hq, Option.map_some, haccess]
  · rw [h.valueAt_before hle hx, valueAt_append_of_lt fun r hr => ?_]
    rw [List.mem_singleton.mp hr, hstart]
    exact hx

/-- The range that starts at the first address, or has the flags already. -/
theorem addLeft_keep (hnew : ¬ (p.start ≠ first ∧ p.access ≠ flags)) (hlast : ∀ q ∈ pre.getLast?, q.access ≠ flags) :
    ∃ left, addLeft l pre.length (pre.length + 1 + mid.length) first flags = (left ++ post, left.length) ∧
      EndsWith l first flags left := by
  have hpre := h.reduced_pre hred
  have hbefore := fun x hx => h.valueAt_before (x := x) hle hx
  have hkeep : ¬ (pre.length ≠ 0 ∧ accessAt l (pre.length - 1) = flags) := by
    rintro ⟨hne, heq⟩
    have hq := List.getLast?_eq_some_getLast (List.ne_nil_of_length_pos (Nat.pos_of_ne_zero hne))
    obtain ⟨rfl, -⟩ := h
    rw [accessAt_append (congrArg (Option.map Breakpoint.access) hq)] at heq
    exact hlast _ hq heq
  have hcover : addLeft l pre.length (pre.length + 1 + mid.length) first flags =
      cover l pre.length (pre.length + 1 + mid.length) first flags p.access := by
    obtain ⟨rfl, -⟩ := h
    rw [addLeft, accessAt_append_cons, getElem?_append_cons, Option.map_some]
    dsimp only
    rw [if_neg fun hc => hnew ⟨fun heq => hc.1 (congrArg some heq), hc.2⟩, if_neg hkeep]
  have hconcat : ∀ s : Range A, pre ++ [s] ++ post = pre ++ s :: post := fun s => by
    rw [List.append_assoc, List.singleton_append]
  rw [hcover]
  by_cases hstart : p.start = first
  · have hlt : ∀ r ∈ pre, r.start < first := fun r hr => hstart ▸ h.pre_lt hred hr
    refine ⟨pre ++ [⟨first, flags⟩], ?_, hpre.of_append.1.concat hlt hlast, fun r hr => ?_, ?_, fun x hx => ?_⟩
    · obtain ⟨rfl, -⟩ := h
      rw [cover_start hstart, hconcat, List.length_append]
      rfl
    · rcases List.mem_append.mp hr with hr | hr
      · exact (hlt r hr).le
      · rw [List.mem_singleton.mp hr]
    · rw [List.getLast?_concat, Option.map_some]
    · rw [hbefore x hx, valueAt_append_of_lt fun r hr => ?_, valueAt_append_of_lt fun r hr => ?_]
      · rw [List.mem_singleton.mp hr, hstart]
        exact hx
      · rw [List.mem_singleton.mp hr]
        exact hx
  · have haccess : p.access = flags := not_not.mp fun hne => hnew ⟨hstart, hne⟩
    refine ⟨pre ++ [p], ?_, hpre, fun r hr => ?_, ?_, fun x hx => (hbefore x hx).symm⟩
    · obtain ⟨rfl, -⟩ := h
      rw [haccess, cover_other hstart, hconcat, List.length_append]
      rfl
    · rcases List.mem_append.mp hr with hr | hr
      · exact (h.pre_lt hred hr).le.trans h.start_le
      · rw [List.mem_singleton.mp hr]
        exact h.start_le
    · rw [List.getLast?_concat, Option.map_some, haccess]

/-- The left end of the rule. -/
theorem addLeft : ∃ left, Filter.addLeft l pre.length (pre.length + 1 + mid.length) first flags =
    (left ++ post, left.length) ∧ EndsWith l first flags left := by
  by_cases hnew : p.start ≠ first ∧ p.access ≠ flags
  · exact h.addLeft_new hred hle hnew.1 hnew.2
  · by_cases hmerge : ∃ q ∈ pre.getLast?, q.access = flags
    · obtain ⟨q, hq, haccess⟩ := hmerge
      exact h.addLeft_merge hred hle hnew hq haccess
    · exact h.addLeft_keep hred hle hnew fun q hq haccess => hmerge ⟨q, hq, haccess⟩

end Around

section AddRight

variable [Addr A]

/-- Addresses are left between the rule and the next range. -/
def Gap (post : List (Range A)) (last : A) : Prop := remains last post.head?

/-- There are some if one of them is. -/
theorem gap_of_lt (h : last < x) (hx : ∀ r ∈ post, x < r.start) : Gap post last := by
  cases post with
  | nil => exact decide_eq_true (Addr.ne_maxAddr h)
  | cons q post =>
    refine decide_eq_true fun heq => ?_
    have hle := (Addr.le_minusOne_iff q.start x (Addr.ne_zero (hx q List.mem_cons_self))).mpr (hx q List.mem_cons_self)
    exact absurd (heq ▸ hle) (not_le.mpr h)

/-- The rule does not reach the last address. -/
theorem Gap.ne_maxAddr (h : Gap post last) (hpost : ∀ r ∈ post, last < r.start) : last ≠ Addr.maxAddr := by
  cases post with
  | nil => exact of_decide_eq_true h
  | cons q post => exact Addr.ne_maxAddr (hpost q List.mem_cons_self)

/-- The address behind it is before the next range. -/
theorem Gap.plusOne_lt (h : Gap post last) (hred : Reduced post) (hpost : ∀ r ∈ post, last < r.start) :
    ∀ r ∈ post, Addr.plusOne last < r.start := by
  have hmax := h.ne_maxAddr hpost
  cases post with
  | nil => intro r hr; cases hr
  | cons q post =>
    have hq : Addr.plusOne last < q.start := by
      refine lt_of_le_of_ne ((Addr.plusOne_le_iff _ _ hmax).mpr (hpost q List.mem_cons_self)) fun heq =>
        (of_decide_eq_true h : Addr.minusOne q.start ≠ last) ?_
      rw [← heq]
      exact Addr.minusOne_plusOne hmax
    intro r hr
    rcases List.mem_cons.mp hr with rfl | hr
    · exact hq
    · exact hq.trans (List.rel_of_pairwise_cons hred.sorted hr)

/-- What is behind the rule, and the access up to there. -/
structure Behind (l : List (Range A)) (last : A) (lastAccess : UInt32) (post : List (Range A)) : Prop where
  reduced : Reduced post
  last_lt : ∀ r ∈ post, last < r.start
  ne_head : ∀ r ∈ post.head?, lastAccess ≠ r.access
  behind : ∀ r ∈ post, ∀ x, r.start ≤ x → valueAt post x = valueAt l x
  between : ∀ x, last ≤ x → (∀ r ∈ post, x < r.start) → valueAt l x = some lastAccess

namespace Behind

variable {v : UInt32} (h : Behind l last v post)

include h

/-- The old flags go on behind the rule. -/
theorem goesOn_insert (hgap : Gap post last) (hne : v ≠ flags) : GoesOn l last flags (⟨Addr.plusOne last, v⟩ :: post) := by
  have hmax := hgap.ne_maxAddr h.last_lt
  have hlast := Addr.lt_plusOne hmax
  have hlt := hgap.plusOne_lt h.reduced h.last_lt
  refine ⟨h.reduced.cons hlt h.ne_head, fun r hr => ?_, fun r hr => ?_, fun r hr x hx => ?_, fun x hx hall => ?_⟩
  · rcases List.mem_cons.mp hr with rfl | hr
    · exact hlast
    · exact h.last_lt r hr
  · rw [← Option.some.inj hr]
    exact hne
  · have hle : Addr.plusOne last ≤ x := by
      rcases List.mem_cons.mp hr with rfl | hr
      · exact hx
      · exact (hlt r hr).le.trans hx
    rw [← List.singleton_append]
    by_cases hpost : ∃ s ∈ post, s.start ≤ x
    · obtain ⟨s, hs, hsx⟩ := hpost
      rw [valueAt_append_of_le hs hsx, h.behind s hs x hsx]
    · have hx' : ∀ s ∈ post, x < s.start := fun s hs => not_le.mp fun hle => hpost ⟨s, hs, hle⟩
      rw [valueAt_append_of_lt hx', h.between x (hlast.le.trans hle) hx', valueAt_of_forall_le (by simpa using hle)]
      rfl
  · exact absurd ((Addr.plusOne_le_iff last x hmax).mpr hx) (not_le.mpr (hall _ List.mem_cons_self))

/-- The next range has the flags of the rule. -/
theorem goesOn_erase {q : Range A} {post' : List (Range A)} (hpost : post = q :: post') (hgap : Gap post last → v = flags)
    (hq : q.access = flags) : GoesOn l last flags post' := by
  obtain ⟨hred, hlast, -, hbehind, hbetween⟩ := h
  subst hpost
  have hsingle : ∀ r ∈ post', ∀ x, r.start ≤ x → valueAt post' x = valueAt (q :: post') x := fun r hr x hx => by
    rw [← List.singleton_append, valueAt_append_of_le hr hx]
  refine ⟨(@Reduced.of_append _ _ _ [q] post' hred).2, fun r hr => hlast r (List.mem_cons_of_mem q hr), fun r hr => ?_,
    fun r hr x hx => ?_, fun x hx hall => ?_⟩
  · rw [← hq]
    exact ((List.isChain_cons.mp hred.changes).1 r hr).symm
  · rw [hsingle r hr x hx, hbehind r (List.mem_cons_of_mem q hr) x hx]
  · rcases le_or_gt q.start x with hqx | hqx
    · rw [← hbehind q List.mem_cons_self x hqx, ← List.singleton_append, valueAt_append_of_lt hall,
        valueAt_of_forall_le (by simpa using hqx), ← hq]
      rfl
    · have hx' : ∀ r ∈ q :: post', x < r.start := List.forall_mem_cons.mpr ⟨hqx, hall⟩
      rw [hbetween x hx.le hx', hgap (gap_of_lt hx hx')]

/-- Nothing has to go on. -/
theorem goesOn_self (hgap : Gap post last → v = flags) (hne : ∀ r ∈ post.head?, r.access ≠ flags) :
    GoesOn l last flags post :=
  ⟨h.reduced, h.last_lt, hne, h.behind, fun x hx hall => by rw [h.between x hx.le hall, hgap (gap_of_lt hx hall)]⟩

/-- The right end of the rule. -/
theorem addRight (hleft : ∀ r ∈ left, r.start ≤ last) :
    ∃ right, addRight (left ++ post) left.length last flags v = left ++ right ∧ GoesOn l last flags right := by
  have hget : ∀ post : List (Range A), (left ++ post)[left.length]? = post.head? := fun post => by
    rw [List.getElem?_append_right le_rfl, Nat.sub_self, List.head?_eq_getElem?]
  rw [Filter.addRight, hget]
  by_cases hnew : remains last post.head? ∧ v ≠ flags
  · have hgap : Gap post last := hnew.1
    have hlast := Addr.lt_plusOne (hgap.ne_maxAddr h.last_lt)
    have hins : insert (left ++ post) ⟨Addr.plusOne last, v⟩ = (left ++ ⟨Addr.plusOne last, v⟩ :: post, left.length) :=
      insert_append (fun s hs => (hleft s hs).trans_lt hlast) (hgap.plusOne_lt h.reduced h.last_lt)
    refine ⟨_, ?_, h.goesOn_insert hgap hnew.2⟩
    rw [if_pos hnew, hins]
    dsimp only
    rw [hget, List.head?_cons, Option.map_some, if_neg fun heq => hnew.2 (Option.some.inj heq)]
  · have hgap : Gap post last → v = flags := fun hgap => not_not.mp fun hne => hnew ⟨hgap, hne⟩
    rw [if_neg hnew]
    dsimp only
    rw [hget]
    cases hpost : post with
    | nil => exact ⟨[], rfl, hpost ▸ h.goesOn_self hgap (by rw [hpost]; intro r hr; cases hr)⟩
    | cons q post' =>
      rw [List.head?_cons, Option.map_some]
      by_cases hq : q.access = flags
      · refine ⟨post', ?_, h.goesOn_erase hpost hgap hq⟩
        rw [if_pos (congrArg some hq), List.eraseIdx_append_of_length_le le_rfl, Nat.sub_self, List.eraseIdx_cons_zero]
      · refine ⟨post, ?_, h.goesOn_self hgap ?_⟩
        · rw [if_neg fun heq => hq (Option.some.inj heq), hpost]
        · rw [hpost]
          intro r hr
          rwa [← Option.some.inj hr]

end Behind

end AddRight

/-- What goes on is the last range that the rule covers. -/
theorem Around.toBehind (h : Around l first last pre p mid post) (hred : Reduced l) (hle : first ≤ last) :
    Behind l last (accessAt l (pre.length + 1 + mid.length - 1)) post := by
  have hpre := fun r => h.pre_lt (r := r) hred
  obtain ⟨rfl, hp, hmid, hpost⟩ := h
  have heq : pre ++ p :: (mid ++ post) = pre ++ p :: mid ++ post := by rw [List.append_assoc, List.cons_append]
  have hlen : pre.length + 1 + mid.length = (pre ++ p :: mid).length := by
    rw [List.length_append, List.length_cons]
    omega
  have hne : pre ++ p :: mid ≠ [] := List.append_ne_nil_of_right_ne_nil pre (List.cons_ne_nil p mid)
  have hlast : (pre ++ p :: mid).getLast? = some ((pre ++ p :: mid).getLast hne) := List.getLast?_eq_some_getLast hne
  rw [hlen, heq, accessAt_append (congrArg (Option.map Breakpoint.access) hlast)]
  rw [heq] at hred
  refine ⟨hred.of_append.2, hpost, fun r hr => ?_, fun r hr x hx => ?_, fun x hx hall => ?_⟩
  · exact (List.isChain_append.mp hred.changes).2.2 _ hlast r hr
  · exact (valueAt_append_of_le hr hx).symm
  · have hle' : ∀ r ∈ pre ++ p :: mid, r.start ≤ x := by
      intro r hr
      have hpx : p.start ≤ x := hp.trans (hle.trans hx)
      rcases List.mem_append.mp hr with hr | hr
      · exact (hpre r hr).le.trans hpx
      · rcases List.mem_cons.mp hr with rfl | hr
        · exact hpx
        · exact (hmid r hr).2.trans hx
    rw [valueAt_append_of_lt hall, valueAt_of_forall_le hle', hlast, Option.map_some]

/-! ## Filters -/

variable [Addr A]

/-- A filter: its ranges cover all addresses, and neighbours differ. -/
structure Valid (l : List (Range A)) : Prop extends Reduced l where
  zero : l.head?.map Breakpoint.start = some Addr.zero

/-- The first range begins with the first address. -/
theorem Valid.exists_le (h : Valid l) (x : A) : ∃ r ∈ l, r.start ≤ x := by
  obtain ⟨r, hr, hzero⟩ := Option.map_eq_some_iff.mp h.zero
  exact ⟨r, List.mem_of_mem_head? hr, hzero ▸ Addr.zero_le x⟩

/-- `access` is the value of the step function. -/
theorem Valid.valueAt_eq (h : Valid l) (x : A) : valueAt l x = some (access l x) := by
  obtain ⟨r, hr, hrx⟩ := h.exists_le x
  obtain ⟨left, right, rfl, hleft, hright⟩ := exists_split h.sorted x
  have hne : left ≠ [] := by
    rintro rfl
    exact absurd (hright r hr) (not_lt.mpr hrx)
  have hlast := List.getLast?_eq_some_getLast hne
  have haccess := @accessAt_append A left right _ (congrArg (Option.map Breakpoint.access) hlast)
  rw [valueAt_append_of_lt hright, valueAt_of_forall_le hleft, hlast, Option.map_some, access,
    upperBound_append hleft hright, if_pos (List.length_pos_iff.mpr hne).ne', haccess]

/-- A rule sets the flags of its addresses and of no others. -/
theorem Valid.addRule (h : Valid l) (hle : first ≤ last) : Valid (addRule l first last flags) ∧
    ∀ x, access (addRule l first last flags) x = if first ≤ x ∧ x ≤ last then flags else access l x := by
  obtain ⟨pre, p, mid, post, haround⟩ := exists_around h.sorted last (h.exists_le first)
  have hbehind := haround.toBehind h.toReduced hle
  obtain ⟨left, hleft, hends⟩ := @Around.addLeft A l pre mid post p _ first last flags haround h.toReduced hle
  obtain ⟨right, hright, hgoes⟩ := @Behind.addRight A l post left _ last flags _ _ hbehind fun r hr => (hends.le_first r hr).trans hle
  have hrule : Filter.addRule l first last flags = left ++ right := by
    rw [Filter.addRule, haround.upperBound_first h.sorted hle, haround.upperBound_last h.sorted hle]
    dsimp only
    rw [if_pos (Nat.succ_ne_zero _), Nat.add_sub_cancel, hleft]
    exact hright
  have hvalue := hends.valueAt_append hgoes hle
  have hvalid : Valid (left ++ right) := by
    have hreduced := hends.reduced_append hgoes hle
    have hzero : ∃ v, valueAt (left ++ right) Addr.zero = some v := by
      rw [hvalue, h.valueAt_eq]
      split
      · exact ⟨_, rfl⟩
      · exact ⟨_, rfl⟩
    obtain ⟨v, hv⟩ := hzero
    refine ⟨hreduced, ?_⟩
    cases heq : left ++ right with
    | nil =>
      rw [heq] at hv
      cases hv
    | cons r l =>
      rw [heq] at hv hreduced
      exact congrArg some (le_antisymm (hreduced.sorted.head_le hv) (Addr.zero_le _))
  rw [hrule]
  refine ⟨hvalid, fun x => ?_⟩
  have hx := hvalue x
  rw [hvalid.valueAt_eq, h.valueAt_eq] at hx
  exact Option.some.inj (hx.trans (apply_ite some _ _ _).symm)

/-- A filter denotes the flags of the last rule. -/
theorem valid_filterOf (rules : List (Rule A)) :
    Valid (filterOf rules) ∧ ∀ x, access (filterOf rules) x = lastFlags rules x := by
  induction rules using List.reverseRecOn with
  | nil =>
    have hvalid : Valid (filterOf ([] : List (Rule A))) :=
      ⟨⟨List.pairwise_singleton _ _, List.isChain_singleton _⟩, rfl⟩
    refine ⟨hvalid, fun x => ?_⟩
    have hx := hvalid.valueAt_eq x
    have hzero : valueAt (filterOf ([] : List (Rule A))) x = some 0 := valueAt_of_forall_le fun r hr => by
      rw [List.mem_singleton.mp hr]
      exact Addr.zero_le x
    exact Option.some.inj (hx.symm.trans hzero)
  | append_singleton rules rule ih =>
    obtain ⟨hvalid, haccess⟩ := ih
    have hfold : filterOf (rules ++ [rule]) = Filter.addRule (filterOf rules) rule.first rule.last rule.flags := by
      rw [filterOf, List.foldl_append]
      rfl
    obtain ⟨hvalid', haccess'⟩ := @Valid.addRule A _ _ rule.first rule.last rule.flags _ hvalid rule.first_le
    rw [hfold]
    refine ⟨hvalid', fun x => ?_⟩
    rw [haccess', haccess, lastFlags, lastFlags, List.reverse_append, List.reverse_singleton, List.singleton_append,
      List.find?_cons]
    by_cases hx : rule.first ≤ x ∧ x ≤ rule.last
    · rw [if_pos hx, decide_eq_true hx]
      rfl
    · rw [if_neg hx, decide_eq_false hx]

/-! ## Ranges -/

/-- Every range is exported. -/
theorem length_exportFilter (l : List (Range A)) : (exportFilter l).length = l.length := by
  induction l with
  | nil => rfl
  | cons r l ih => rw [exportFilter, List.length_cons, List.length_cons, ih]

/-- The end of a range is the last address before those behind it. -/
theorem le_end_iff (h : Sorted (r :: l)) :
    x ≤ (l.head?.map fun s => Addr.minusOne s.start).getD Addr.maxAddr ↔ ∀ s ∈ l, x < s.start := by
  cases l with
  | nil => exact ⟨fun _ s hs => absurd hs List.not_mem_nil, fun _ => Addr.le_maxAddr x⟩
  | cons t l =>
    rw [List.head?_cons, Option.map_some, Option.getD_some,
      Addr.le_minusOne_iff _ _ (Addr.ne_zero (List.rel_of_pairwise_cons h List.mem_cons_self))]
    exact ⟨fun hx => List.forall_mem_cons.mpr ⟨hx, fun s hs => hx.trans (List.rel_of_pairwise_cons h.of_cons hs)⟩,
      fun hall => hall t List.mem_cons_self⟩

/-- It begins where it begins in the set. -/
theorem first_mem_of_mem_exportFilter {e : IpRange A} (he : e ∈ exportFilter l) : ∃ r ∈ l, e.first = r.start := by
  induction l with
  | nil => cases he
  | cons r l ih =>
    rcases List.mem_cons.mp he with rfl | he
    · exact ⟨r, List.mem_cons_self, rfl⟩
    · obtain ⟨s, hs, heq⟩ := ih he
      exact ⟨s, List.mem_cons_of_mem r hs, heq⟩

/-- The ranges are in order. -/
theorem pairwise_exportFilter (h : Sorted l) : (exportFilter l).Pairwise fun e e' => e.last < e'.first := by
  induction l with
  | nil => exact List.Pairwise.nil
  | cons r l ih =>
    refine List.pairwise_cons.mpr ⟨fun e he => ?_, ih h.of_cons⟩
    obtain ⟨s, hs, heq⟩ := first_mem_of_mem_exportFilter he
    rw [heq]
    exact (le_end_iff h).mp le_rfl s hs

/-- A range holds the addresses whose value is given by its breakpoint. -/
theorem valueAt_of_mem_exportFilter (h : Sorted l) {e : IpRange A} (he : e ∈ exportFilter l) (hfirst : e.first ≤ x)
    (hlast : x ≤ e.last) : valueAt l x = some e.flags := by
  induction l with
  | nil => cases he
  | cons r l ih =>
    rcases List.mem_cons.mp he with rfl | he
    · rw [← List.singleton_append, valueAt_append_of_lt ((le_end_iff h).mp hlast),
        valueAt_of_forall_le (by simpa using hfirst)]
      rfl
    · obtain ⟨s, hs, heq⟩ := first_mem_of_mem_exportFilter he
      rw [← List.singleton_append, valueAt_append_of_le hs (heq ▸ hfirst)]
      exact ih h.of_cons he

/-- Every address is in one of them. -/
theorem exists_mem_exportFilter (h : Sorted l) (hx : ∃ r ∈ l, r.start ≤ x) :
    ∃ e ∈ exportFilter l, e.first ≤ x ∧ x ≤ e.last := by
  induction l with
  | nil =>
    obtain ⟨r, hr, -⟩ := hx
    cases hr
  | cons r l ih =>
    by_cases hrest : ∃ s ∈ l, s.start ≤ x
    · obtain ⟨e, he, hin⟩ := ih h.of_cons hrest
      exact ⟨e, List.mem_cons_of_mem _ he, hin⟩
    · obtain ⟨s, hs, hsx⟩ := hx
      have hr : r.start ≤ x := (List.mem_cons.mp hs).elim (fun heq => heq ▸ hsx) fun hs => absurd ⟨s, hs, hsx⟩ hrest
      exact ⟨_, List.mem_cons_self, hr, (le_end_iff h).mpr fun s hs => not_le.mp fun hle => hrest ⟨s, hs, hle⟩⟩

/-- These ranges cover all addresses with the access of the filter. -/
structure Describes (l : List (Range A)) (ranges : List (IpRange A)) : Prop where
  covers : ∀ x, ∃ e ∈ ranges, e.first ≤ x ∧ x ≤ e.last
  agrees : ∀ e ∈ ranges, ∀ x, e.first ≤ x → x ≤ e.last → e.flags = access l x

/-- What is promised of a filter after some rules. -/
structure Correct (rules : List (Rule A)) : Prop where
  access_eq : ∀ x, access (filterOf rules) x = lastFlags rules x
  zero : (filterOf rules).head?.map Breakpoint.start = some Addr.zero
  sorted : Sorted (filterOf rules)
  neighbours : (filterOf rules).IsChain fun r s => r.access ≠ s.access
  describes : Describes (filterOf rules) (exportFilter (filterOf rules))
  nonempty : ∀ e ∈ exportFilter (filterOf rules), e.first ≤ e.last
  disjoint : (exportFilter (filterOf rules)).Pairwise fun e e' => e.last < e'.first
  minimal : ∀ ranges, Describes (filterOf rules) ranges → (exportFilter (filterOf rules)).length ≤ ranges.length

/-- None of them is empty. -/
theorem first_le_last_of_mem (h : Sorted l) {e : IpRange A} (he : e ∈ exportFilter l) : e.first ≤ e.last := by
  induction l with
  | nil => cases he
  | cons r l ih =>
    rcases List.mem_cons.mp he with rfl | he
    · exact (le_end_iff h).mpr fun s hs => List.rel_of_pairwise_cons h hs
    · exact ih h.of_cons he

/-- The ranges say what the filter says. -/
theorem Valid.describes (h : Valid l) : Describes l (exportFilter l) :=
  ⟨fun x => exists_mem_exportFilter h.sorted (h.exists_le x), fun _ he x hfirst hlast =>
    Option.some.inj ((valueAt_of_mem_exportFilter h.sorted he hfirst hlast).symm.trans (h.valueAt_eq x))⟩

/-- No fewer ranges can. -/
theorem Valid.length_le (h : Valid l) {ranges : List (IpRange A)} (hranges : Describes l ranges) :
    (exportFilter l).length ≤ ranges.length := by
  have hle := @Reduced.length_le _ _ _ l h.toReduced (ranges.map fun e => (e.first, e.last)) (fun x => ?_) fun p hp x y => ?_
  · rwa [length_exportFilter, ← @List.length_map _ _ ranges fun e => (e.first, e.last)]
  · obtain ⟨e, he, hin⟩ := hranges.covers x
    exact ⟨_, List.mem_map_of_mem he, hin⟩
  · obtain ⟨e, he, rfl⟩ := List.mem_map.mp hp
    intro hx hx' hy hy'
    rw [h.valueAt_eq, h.valueAt_eq, ← hranges.agrees e he x hx hx', ← hranges.agrees e he y hy hy']

/-- Every list of rules. -/
theorem Correct.of_rules (rules : List (Rule A)) : Correct rules := by
  obtain ⟨hvalid, haccess⟩ := valid_filterOf rules
  exact ⟨haccess, hvalid.zero, hvalid.sorted, hvalid.changes, hvalid.describes,
    fun e he => first_le_last_of_mem hvalid.sorted he, pairwise_exportFilter hvalid.sorted,
    fun _ hranges => hvalid.length_le hranges⟩

/-- For addresses of any width, and for ports. -/
theorem filters_correct : (∀ (n : ℕ) (rules : List (Rule (Bytes n))), Correct rules) ∧
    ∀ rules : List (Rule Port), Correct rules :=
  ⟨fun _ => Correct.of_rules, Correct.of_rules⟩

/-- Two bytes: a rule for all addresses, a rule inside, and one that ends at the last address. -/
example : exportFilter (filterOf [⟨⟨[0, 0], rfl⟩, ⟨[255, 255], rfl⟩, 1, by decide⟩,
    ⟨⟨[0, 255], rfl⟩, ⟨[1, 0], rfl⟩, 0, by decide⟩, ⟨⟨[255, 0], rfl⟩, ⟨[255, 255], rfl⟩, 2, by decide⟩]) =
      [⟨⟨[0, 0], rfl⟩, ⟨[0, 254], rfl⟩, 1⟩, ⟨⟨[0, 255], rfl⟩, ⟨[1, 0], rfl⟩, 0⟩,
        ⟨⟨[1, 1], rfl⟩, ⟨[254, 255], rfl⟩, 1⟩, ⟨⟨[255, 0], rfl⟩, (⟨[255, 255], rfl⟩ : Bytes 2), 2⟩] := by
  decide

/-! ## What a filter keeps -/

/-- A valid filter is the only one for its access. -/
theorem Valid.eq_of_access (h : Valid l) (h' : Valid l') (heq : ∀ x, access l x = access l' x) : l = l' :=
  h.toReduced.eq_of_valueAt h'.toReduced fun x => by rw [h.valueAt_eq, h'.valueAt_eq, heq]

/-- Rules leave the same filter behind exactly when they say the same of every address. -/
theorem filterOf_eq_iff (rules rules' : List (Rule A)) :
    filterOf rules = filterOf rules' ↔ ∀ x, lastFlags rules x = lastFlags rules' x := by
  obtain ⟨hvalid, haccess⟩ := valid_filterOf rules
  obtain ⟨hvalid', haccess'⟩ := valid_filterOf rules'
  refine ⟨fun heq x => ?_, fun heq => hvalid.eq_of_access hvalid' fun x => ?_⟩
  · rw [← haccess, ← haccess', heq]
  · rw [haccess, haccess', heq]

/-- The rule as a range. -/
def Rule.range (rule : Rule A) : IpRange A := ⟨rule.first, rule.last, rule.flags⟩

/-- A filter is built again from the ranges that it exports, in whatever order they are added. -/
theorem filterOf_exportFilter (rules rules' : List (Rule A))
    (h : (rules'.map Rule.range).Perm (exportFilter (filterOf rules))) : filterOf rules' = filterOf rules := by
  obtain ⟨hvalid, -⟩ := valid_filterOf rules
  obtain ⟨hvalid', haccess'⟩ := valid_filterOf rules'
  obtain ⟨hcovers, hagrees⟩ := hvalid.describes
  refine hvalid'.eq_of_access hvalid fun x => ?_
  rw [haccess', lastFlags]
  cases hfind : rules'.reverse.find? fun rule => rule.first ≤ x ∧ x ≤ rule.last with
  | none =>
    -- some range has the address, and its rule would have been found
    obtain ⟨e, he, hx⟩ := hcovers x
    obtain ⟨rule, hrule, rfl⟩ := List.mem_map.mp (h.mem_iff.mpr he)
    exact absurd (decide_eq_true hx) (List.find?_eq_none.mp hfind rule (List.mem_reverse.mpr hrule))
  | some rule =>
    have hmem := List.mem_reverse.mp (List.mem_of_find?_eq_some hfind)
    have hx : rule.first ≤ x ∧ x ≤ rule.last := by simpa using List.find?_some hfind
    exact hagrees _ (h.mem_iff.mp (List.mem_map_of_mem hmem)) x hx.1 hx.2

/-- One byte: the range of a rule, and those around it, added from the last on. -/
theorem filterOf_exportFilter_three :
    filterOf [⟨(⟨[9], rfl⟩ : Bytes 1), ⟨[255], rfl⟩, 0, by decide⟩, ⟨⟨[5], rfl⟩, ⟨[8], rfl⟩, 1, by decide⟩,
      ⟨⟨[0], rfl⟩, ⟨[4], rfl⟩, 0, by decide⟩] = filterOf [⟨⟨[5], rfl⟩, ⟨[8], rfl⟩, 1, by decide⟩] :=
  filterOf_exportFilter [⟨(⟨[5], rfl⟩ : Bytes 1), ⟨[8], rfl⟩, 1, by decide⟩] _ (by decide)

/-- `empty`. -/
def isEmpty (l : List (Range A)) : Bool := l.isEmpty || l == [⟨Addr.zero, 0⟩]

/-- A filter is empty exactly when no address is left with flags, whatever rules came before. -/
theorem isEmpty_filterOf (rules : List (Rule A)) : isEmpty (filterOf rules) ↔ ∀ x, lastFlags rules x = 0 := by
  obtain ⟨hvalid, haccess⟩ := valid_filterOf rules
  obtain ⟨hvalid₀, haccess₀⟩ := valid_filterOf ([] : List (Rule A))
  have hne : filterOf rules ≠ [] := fun hnil => by
    have hzero := hvalid.zero
    rw [hnil] at hzero
    cases hzero
  rw [isEmpty, List.isEmpty_eq_false_iff.mpr hne, Bool.false_or, beq_iff_eq]
  constructor
  · intro heq x
    rw [← haccess, heq]
    exact haccess₀ x
  · exact fun heq => hvalid.eq_of_access hvalid₀ fun x => (haccess x).trans ((heq x).trans (haccess₀ x).symm)

end Filter

end LibtorrentSN
