import LibtorrentSN.Torrent.Sanitize

/-!
# The length of sanitised elements

A path element should not be longer than 255 bytes. `sanitize_append_path_element`
(`src/torrent_info.cpp`) looks at the length when it has added a character: from 240 bytes on it goes
to the extension, which begins at the last dot of the last nine bytes, or ends. It does not look at
the length when it adds an underscore for what is not valid, so a run of those that crosses the
limit is added as a whole.
-/

namespace LibtorrentSN

namespace Torrent

open Bencode (ascii)

variable {element path str rest ext e x : List UInt8} {fuel n added : ℕ} {s : Sanitizing}

/-! ## Elements as code points -/

/-- What `parse_utf8_codepoint` reads at one place of an element: a value, `none` for -1, and the
bytes it takes. -/
structure CodePoint where
  value : Option ℕ
  bytes : List UInt8

namespace CodePoint

/-- Neither filtered nor replaced. -/
def kept (c : CodePoint) : Bool :=
  c.value.any fun v => !filterPathCharacter v && validPathCharacter v

/-- Written as an underscore. -/
def replaced (c : CodePoint) : Bool :=
  c.value.all fun v => !filterPathCharacter v && !validPathCharacter v

/-- What is written for a code point. -/
def written (c : CodePoint) : List UInt8 :=
  if c.kept then c.bytes else if c.replaced then [ascii '_'] else []

end CodePoint

variable {c d : CodePoint} {cs pre run post head tail : List CodePoint}

def firstCodePoint (str : List UInt8) : CodePoint :=
  ⟨(parseUtf8Codepoint str).1, str.take (parseUtf8Codepoint str).2⟩

/-- The code points from the start of a string on. The fuel is the number of bytes. -/
def codePointsFrom : ℕ → List UInt8 → List CodePoint
  | 0, _ => []
  | fuel + 1, str =>
    if str = [] then []
    else firstCodePoint str :: codePointsFrom fuel (str.drop (parseUtf8Codepoint str).2)

def codePoints (str : List UInt8) : List CodePoint := codePointsFrom str.length str

/-- Every code point written, without a limit. -/
def plain (cs : List CodePoint) : List UInt8 := cs.flatMap CodePoint.written

@[simp] theorem plain_nil : plain [] = [] := rfl

@[simp] theorem plain_cons : plain (c :: cs) = c.written ++ plain cs := List.flatMap_cons

@[simp] theorem plain_append : plain (pre ++ post) = plain pre ++ plain post := List.flatMap_append

/-- Fuel for every byte is enough. -/
theorem codePointsFrom_fuel {m : ℕ} (hn : str.length ≤ n) (hm : str.length ≤ m) :
    codePointsFrom n str = codePointsFrom m str := by
  induction n generalizing str m with
  | zero =>
    obtain rfl := List.length_eq_zero_iff.mp (Nat.le_zero.mp hn)
    cases m <;> rfl
  | succ n ih =>
    cases str with
    | nil => cases m <;> rfl
    | cons b bs =>
      cases m with
      | zero => exact absurd hm (Nat.not_succ_le_zero _)
      | succ m =>
        have hpos := parseUtf8Codepoint_pos (List.cons_ne_nil b bs)
        have hlen : ((b :: bs).drop (parseUtf8Codepoint (b :: bs)).2).length ≤ bs.length := by
          rw [List.length_drop, List.length_cons]
          omega
        rw [codePointsFrom, codePointsFrom, if_neg (List.cons_ne_nil b bs),
          if_neg (List.cons_ne_nil b bs)]
        exact congrArg (_ :: ·) (ih (hlen.trans (Nat.le_of_succ_le_succ hn))
          (hlen.trans (Nat.le_of_succ_le_succ hm)))

theorem codePoints_of_ne_nil (h : str ≠ []) :
    codePoints str = firstCodePoint str :: codePoints (str.drop (parseUtf8Codepoint str).2) := by
  have hpos := parseUtf8Codepoint_pos h
  have hlen : (str.drop (parseUtf8Codepoint str).2).length ≤ str.length - 1 := by
    rw [List.length_drop]
    omega
  obtain ⟨k, hk⟩ := Nat.exists_eq_succ_of_ne_zero (List.length_pos_iff.mpr h).ne'
  rw [codePoints, hk, codePointsFrom, if_neg h]
  exact congrArg (_ :: ·) (codePointsFrom_fuel (hlen.trans (by omega)) le_rfl)

/-- The code points of a string take all of it. -/
theorem codePoints_bytes (str : List UInt8) : (codePoints str).flatMap CodePoint.bytes = str := by
  induction h : str.length using Nat.strong_induction_on generalizing str with
  | _ k ih =>
    by_cases hnil : str = []
    · rw [hnil]
      rfl
    · have hpos := parseUtf8Codepoint_pos hnil
      have hlen := List.length_pos_iff.mpr hnil
      rw [codePoints_of_ne_nil hnil, List.flatMap_cons, ih _ ?_ _ rfl, firstCodePoint,
        List.take_append_drop]
      rw [List.length_drop]
      omega

/-! ## The loop -/

/-- The element up to and with the character that reaches the limit, and what is after it: the first
character kept that leaves 240 bytes or more. -/
def splitLimit : ℕ → List CodePoint → List CodePoint × List CodePoint
  | _, [] => ([], [])
  | added, c :: cs =>
    if c.kept ∧ 240 ≤ added + c.written.length then ([c], cs)
    else
      let (head, rest) := splitLimit (added + c.written.length) cs
      (c :: head, rest)

/-- The bytes from the last dot on, if that is one of the last nine. -/
structure Extension (rest ext : List UInt8) : Prop where
  suffix : ext <:+ rest
  length_le : ext.length ≤ 9
  dot : ext.head? = some (ascii '.')
  last : ascii '.' ∉ ext.tail

/-- What is written after the limit: the extension, without a limit of its own. -/
inductive Written (rest : List UInt8) : List UInt8 → Prop
  | extension {ext : List UInt8} (h : Extension rest ext) : Written rest (plain (codePoints ext))
  | nothing (h : ∀ ext, ¬ Extension rest ext) : Written rest []

/-! ### The extension -/

theorem extensionDot_some {i dot : ℕ} (h : extensionDot element i = some dot) :
    element.length - 10 < dot ∧ dot < element.length ∧ element[dot]? = some (ascii '.') ∧
      ∀ j, dot < j → element[j]? ≠ some (ascii '.') := by
  have hmem := List.mem_filter.mp (List.mem_of_getLast? h)
  have hdot := of_decide_eq_true hmem.2
  refine ⟨lt_of_le_of_lt (le_max_left _ _) hdot.1, List.mem_range.mp hmem.1, hdot.2, ?_⟩
  intro j hj hget
  -- a later dot would come after the last of the list
  have hlt := (List.getElem?_eq_some_iff.mp hget).1
  have hjmem : j ∈ (List.range element.length).filter fun j =>
      decide (max (element.length - 10) i < j ∧ element[j]? = some (ascii '.')) :=
    List.mem_filter.mpr ⟨List.mem_range.mpr hlt, decide_eq_true ⟨hdot.1.trans hj, hget⟩⟩
  obtain ⟨ys, hys⟩ := List.getLast?_eq_some_iff.mp h
  have hsorted : ((List.range element.length).filter fun j =>
      decide (max (element.length - 10) i < j ∧ element[j]? = some (ascii '.'))).Pairwise (· < ·) :=
    List.pairwise_lt_range.filter _
  rw [hys] at hjmem hsorted
  rcases List.mem_append.mp hjmem with hjy | hjd
  · have hlast := (List.pairwise_append.mp hsorted).2.2 j hjy dot (List.mem_singleton_self dot)
    exact absurd hlast (Nat.lt_asymm hj)
  · exact absurd hj ((List.mem_singleton.mp hjd) ▸ Nat.lt_irrefl dot)

theorem extensionDot_none {i : ℕ} (h : extensionDot element i = none) :
    ∀ j, max (element.length - 10) i < j → element[j]? ≠ some (ascii '.') := by
  intro j hj hget
  have hlt := (List.getElem?_eq_some_iff.mp hget).1
  have hnil := List.getLast?_eq_none_iff.mp h
  rw [List.filter_eq_nil_iff] at hnil
  exact hnil j (List.mem_range.mpr hlt) (decide_eq_true ⟨hj, hget⟩)

/-- No byte of a character of several bytes is a dot. -/
theorem getElem?_ne_dot {v j : ℕ} (h : parseUtf8Codepoint str = (some v, n)) (h0 : 0 < j)
    (hj : j < n) : str[j]? ≠ some (ascii '.') := by
  intro hget
  have hmem : ascii '.' ∈ str.take n := by
    rw [← List.getElem?_take_of_lt hj] at hget
    exact List.mem_of_getElem? hget
  obtain ⟨-, -, hn, -⟩ := parseUtf8Codepoint_some h
  rcases parseUtf8Codepoint_bytes h with ⟨htake, -⟩ | ⟨-, hbytes⟩
  · have hlen := congrArg List.length htake
    rw [List.length_take, List.length_singleton] at hlen
    omega
  · exact absurd (hbytes _ hmem) (by decide)

theorem extension_of_extensionDot {v i dot : ℕ} (hi : i < element.length)
    (hparse : parseUtf8Codepoint (element.drop i) = (some v, n))
    (h : extensionDot element i = some dot) :
    Extension (element.drop (i + n)) (element.drop dot) := by
  obtain ⟨h10, hlt, hget, hlast⟩ := extensionDot_some h
  have hidot := lt_of_extensionDot h
  have hcut : i + n ≤ dot := by
    by_contra hcut
    refine getElem?_ne_dot hparse (j := dot - i) (by omega) (by omega) ?_
    rw [List.getElem?_drop, Nat.add_sub_cancel' hidot.le]
    exact hget
  refine ⟨?_, ?_, ?_, ?_⟩
  · obtain ⟨k, rfl⟩ := Nat.exists_eq_add_of_le hcut
    rw [← List.drop_drop]
    exact List.drop_suffix _ _
  · rw [List.length_drop]
    omega
  · rw [List.head?_drop]
    exact hget
  · intro hmem
    obtain ⟨k, hk⟩ := List.mem_iff_getElem?.mp hmem
    rw [List.tail_drop, List.getElem?_drop] at hk
    exact hlast _ (by omega) hk

theorem not_extension_of_extensionDot {i : ℕ} (hn : 0 < n) (hlen : i + n ≤ element.length)
    (h : extensionDot element i = none) : ∀ ext, ¬ Extension (element.drop (i + n)) ext := by
  intro ext hext
  have hle := hext.suffix.length_le
  have hnine := hext.length_le
  have hpos : 0 < ext.length := by
    have hdot := hext.dot
    cases ext with
    | nil => cases hdot
    | cons b bs => exact Nat.succ_pos _
  rw [List.length_drop] at hle
  refine extensionDot_none h (element.length - ext.length) (by omega) ?_
  have hdrop := List.suffix_iff_eq_drop.mp (hext.suffix.trans (List.drop_suffix _ _))
  rw [← List.head?_drop, ← hdrop]
  exact hext.dot

theorem Extension.eq_of_le (h : Extension rest ext) (h' : Extension rest e)
    (hle : ext.length ≤ e.length) : ext = e := by
  have hsuffix := List.suffix_of_suffix_length_le h.suffix h'.suffix hle
  have hlast := h'.last
  cases e with
  | nil => exact List.suffix_nil.mp hsuffix
  | cons b bs =>
    rcases List.suffix_cons_iff.mp hsuffix with heq | hbs
    · exact heq
    · exact absurd (hbs.subset (List.mem_of_head? h.dot)) hlast

/-- An extension is the only one. -/
theorem Extension.eq (h : Extension rest ext) (h' : Extension rest e) : ext = e := by
  rcases Nat.le_total ext.length e.length with hle | hle
  · exact h.eq_of_le h' hle
  · exact (h'.eq_of_le h hle).symm

/-! ### The turns of the loop -/

/-- A code point that is not kept is written, and the loop goes on. -/
theorem sanitizeLoop_skip (hi : s.i < element.length)
    (hk : (firstCodePoint (element.drop s.i)).kept = false) :
    ∃ s' : Sanitizing, s'.i = s.i + (parseUtf8Codepoint (element.drop s.i)).2 ∧
      s'.out = s.out ++ (firstCodePoint (element.drop s.i)).written ∧
      s'.foundExtension = s.foundExtension ∧
      sanitizeLoop element (fuel + 1) s = sanitizeLoop element fuel s' := by
  obtain ⟨⟨value, n⟩, hparse⟩ : ∃ p, parseUtf8Codepoint (element.drop s.i) = p := ⟨_, rfl⟩
  rw [CodePoint.written, hk, sanitizeLoop, if_neg (Nat.not_le.mpr hi)]
  simp only [firstCodePoint, CodePoint.kept, CodePoint.replaced, hparse] at hk ⊢
  cases value with
  | none => exact ⟨s.replace n, rfl, rfl, rfl, rfl⟩
  | some v =>
    simp only [Option.any_some] at hk
    simp only [Option.all_some]
    by_cases hf : filterPathCharacter v = true
    · exact ⟨{ s with i := s.i + n }, rfl, by simp [hf], rfl, if_pos hf⟩
    · have hv : validPathCharacter v = false := by simpa [hf] using hk
      exact ⟨s.replace n, rfl, by simp [hf, hv, Sanitizing.replace], rfl, by simp [hf, hv]⟩

/-- A character that is kept, and what the loop does at the limit. -/
theorem sanitizeLoop_keep (hi : s.i < element.length)
    (hk : (firstCodePoint (element.drop s.i)).kept = true) :
    ∃ (v n : ℕ) (s' : Sanitizing), parseUtf8Codepoint (element.drop s.i) = (some v, n) ∧
      s'.i = s.i + n ∧
      s'.out = s.out ++ (firstCodePoint (element.drop s.i)).written ∧
      s'.foundExtension = s.foundExtension ∧
      sanitizeLoop element (fuel + 1) s =
        if 240 ≤ s'.out.length ∧ s.foundExtension = false then
          match extensionDot element s.i with
          | none => s'
          | some dot => sanitizeLoop element fuel { s' with foundExtension := true, i := dot }
        else sanitizeLoop element fuel s' := by
  obtain ⟨⟨value, n⟩, hparse⟩ : ∃ p, parseUtf8Codepoint (element.drop s.i) = p := ⟨_, rfl⟩
  rw [CodePoint.written, hk, sanitizeLoop, if_neg (Nat.not_le.mpr hi)]
  simp only [firstCodePoint, CodePoint.kept, hparse] at hk ⊢
  cases value with
  | none => cases hk
  | some v =>
    simp only [Option.any_some, Bool.and_eq_true, Bool.not_eq_true'] at hk
    dsimp only
    rw [hk.1, hk.2]
    exact ⟨v, n, s.push element v n, rfl, rfl, rfl, rfl, rfl⟩

/-- Once the extension has been found, everything is written. -/
theorem sanitizeLoop_found (hf : s.foundExtension = true) (h : element.length ≤ s.i + fuel) :
    (sanitizeLoop element fuel s).out = s.out ++ plain (codePoints (element.drop s.i)) := by
  induction fuel generalizing s with
  | zero =>
    rw [List.drop_eq_nil_of_le (Nat.add_zero s.i ▸ h)]
    exact (List.append_nil _).symm
  | succ fuel ih =>
    by_cases hi : element.length ≤ s.i
    · rw [sanitizeLoop, if_pos hi, List.drop_eq_nil_of_le hi]
      exact (List.append_nil _).symm
    · have hi := Nat.lt_of_not_le hi
      have hne : element.drop s.i ≠ [] := List.drop_eq_nil_iff.not.mpr (Nat.not_le.mpr hi)
      have hpos := parseUtf8Codepoint_pos hne
      rw [codePoints_of_ne_nil hne, plain_cons, List.drop_drop, ← List.append_assoc]
      cases hk : (firstCodePoint (element.drop s.i)).kept with
      | false =>
        obtain ⟨s', hi', hout, hf', heq⟩ := @sanitizeLoop_skip element fuel s hi hk
        rw [heq, ih (hf'.trans hf) (by omega), hout, hi']
      | true =>
        obtain ⟨v, n, s', hparse, hi', hout, hf', heq⟩ := @sanitizeLoop_keep element fuel s hi hk
        rw [hparse] at hpos ⊢
        rw [heq, if_neg (by simp [hf]), ih (hf'.trans hf) (by omega), hout, hi']

theorem written_nil : Written [] [] := by
  refine .nothing fun ext hext => ?_
  have hdot := hext.dot
  rw [List.suffix_nil.mp hext.suffix] at hdot
  cases hdot

theorem splitLimit_go (h : ¬ (c.kept ∧ 240 ≤ added + c.written.length)) :
    splitLimit added (c :: cs) = (c :: (splitLimit (added + c.written.length) cs).1,
      (splitLimit (added + c.written.length) cs).2) :=
  if_neg h

theorem splitLimit_cut (h : c.kept ∧ 240 ≤ added + c.written.length) :
    splitLimit added (c :: cs) = ([c], cs) :=
  if_pos h

/-- What the loop adds: the code points up to the limit, and the extension after it. -/
theorem sanitizeLoop_out (hf : s.foundExtension = false) (h : element.length ≤ s.i + fuel) :
    ∃ x, Written ((splitLimit s.out.length (codePoints (element.drop s.i))).2.flatMap
        CodePoint.bytes) x ∧
      (sanitizeLoop element fuel s).out =
        s.out ++ plain (splitLimit s.out.length (codePoints (element.drop s.i))).1 ++ x := by
  induction fuel generalizing s with
  | zero =>
    rw [List.drop_eq_nil_of_le (Nat.add_zero s.i ▸ h)]
    exact ⟨[], written_nil, by simp [sanitizeLoop, codePoints, codePointsFrom, splitLimit]⟩
  | succ fuel ih =>
    by_cases hi : element.length ≤ s.i
    · rw [sanitizeLoop, if_pos hi, List.drop_eq_nil_of_le hi]
      exact ⟨[], written_nil, by simp [codePoints, codePointsFrom, splitLimit]⟩
    · have hi := Nat.lt_of_not_le hi
      have hne : element.drop s.i ≠ [] := List.drop_eq_nil_iff.not.mpr (Nat.not_le.mpr hi)
      have hpos := parseUtf8Codepoint_pos hne
      rw [codePoints_of_ne_nil hne, List.drop_drop]
      cases hk : (firstCodePoint (element.drop s.i)).kept with
      | false =>
        obtain ⟨s', hi', hout, hf', heq⟩ := @sanitizeLoop_skip element fuel s hi hk
        obtain ⟨x, hx, hloop⟩ := ih (hf'.trans hf) (by omega)
        rw [hout, List.length_append, hi'] at hx hloop
        rw [splitLimit_go (by simp [hk]), heq, hloop, plain_cons]
        exact ⟨x, hx, by simp only [List.append_assoc]⟩
      | true =>
        obtain ⟨v, n, s', hparse, hi', hout, hf', heq⟩ := @sanitizeLoop_keep element fuel s hi hk
        rw [hparse] at hpos ⊢
        by_cases hlimit : 240 ≤ s'.out.length
        · have hcut : (firstCodePoint (element.drop s.i)).kept ∧
              240 ≤ s.out.length + (firstCodePoint (element.drop s.i)).written.length := by
            rw [← List.length_append, ← hout]
            exact ⟨hk, hlimit⟩
          rw [splitLimit_cut hcut, heq, if_pos ⟨hlimit, hf⟩, codePoints_bytes]
          dsimp only
          rw [plain_cons, plain_nil, List.append_nil, ← hout]
          cases hdot : extensionDot element s.i with
          | none =>
            have hle : s.i + n ≤ element.length := by
              obtain ⟨-, -, hle, -⟩ := parseUtf8Codepoint_some hparse
              rw [List.length_drop] at hle
              omega
            exact ⟨[], .nothing (not_extension_of_extensionDot hpos hle hdot),
              (List.append_nil _).symm⟩
          | some dot =>
            have hlt := lt_of_extensionDot hdot
            exact ⟨_, .extension (extension_of_extensionDot hi hparse hdot),
              sanitizeLoop_found rfl (by dsimp only; omega)⟩
        · obtain ⟨x, hx, hloop⟩ := ih (hf'.trans hf) (by omega)
          rw [hout, List.length_append, hi'] at hx hloop
          rw [hout, List.length_append] at hlimit
          rw [splitLimit_go (fun hcut => hlimit hcut.2), heq, if_neg, hloop, plain_cons]
          · exact ⟨x, hx, by simp only [List.append_assoc]⟩
          · rw [hout, List.length_append]
            exact fun hcut => hlimit hcut.1

/-! ## The limit -/

/-- Where the limit of 240 bytes is reached: less than that is written for `pre`, nothing of `run` is
kept, and `c` is kept. -/
structure Cut (element : List UInt8) (pre run : List CodePoint) (c : CodePoint)
    (post : List CodePoint) : Prop where
  split : codePoints element = pre ++ run ++ c :: post
  below : (plain pre).length < 240
  unkept : ∀ d ∈ run, d.kept = false
  kept : c.kept = true
  reached : 240 ≤ (plain pre).length + run.countP CodePoint.replaced + c.bytes.length

/-- An underscore is written for each code point of a run that is replaced. -/
theorem plain_run (h : ∀ d ∈ run, d.kept = false) :
    (plain run).length = run.countP CodePoint.replaced := by
  induction run with
  | nil => rfl
  | cons d run ih =>
    obtain ⟨hd, hrun⟩ := List.forall_mem_cons.mp h
    rw [plain_cons, List.length_append, ih hrun, List.countP_cons, CodePoint.written, hd,
      Nat.add_comm]
    split_ifs <;> first | rfl | contradiction

theorem written_kept (h : c.kept = true) : c.written = c.bytes := if_pos h

theorem splitLimit_run (h : ∀ d ∈ run, d.kept = false) :
    splitLimit added (run ++ cs) = (run ++ (splitLimit (added + (plain run).length) cs).1,
      (splitLimit (added + (plain run).length) cs).2) := by
  induction run generalizing added with
  | nil => rfl
  | cons d run ih =>
    obtain ⟨hd, hrun⟩ := List.forall_mem_cons.mp h
    rw [List.cons_append, splitLimit_go (by simp [hd]), ih hrun, plain_cons, List.length_append,
      Nat.add_assoc]
    rfl

theorem splitLimit_below (h : added + (plain pre).length < 240) :
    splitLimit added (pre ++ cs) = (pre ++ (splitLimit (added + (plain pre).length) cs).1,
      (splitLimit (added + (plain pre).length) cs).2) := by
  induction pre generalizing added with
  | nil => rfl
  | cons d pre ih =>
    rw [plain_cons, List.length_append] at h
    rw [List.cons_append, splitLimit_go (by omega), ih (by omega), plain_cons, List.length_append,
      Nat.add_assoc]
    rfl

/-- The code points either stay below the limit but for a run at their end, or reach it. -/
theorem exists_run_or_cut (cs : List CodePoint) :
    (∃ pre run, cs = pre ++ run ∧ (plain pre).length < 240 ∧ ∀ d ∈ run, d.kept = false) ∨
    ∃ pre run c post, cs = pre ++ run ++ c :: post ∧ (plain pre).length < 240 ∧
      (∀ d ∈ run, d.kept = false) ∧ c.kept = true ∧
      240 ≤ (plain pre).length + run.countP CodePoint.replaced + c.bytes.length := by
  induction cs using List.reverseRecOn with
  | nil => exact .inl ⟨[], [], rfl, by simp, by simp⟩
  | append_singleton cs c ih =>
    rcases ih with ⟨pre, run, rfl, hbelow, hrun⟩ | ⟨pre, run, d, post, rfl, hbelow, hrun, hd, h⟩
    · cases hk : c.kept with
      | false =>
        refine .inl ⟨pre, run ++ [c], by simp, hbelow, ?_⟩
        exact List.forall_mem_append.mpr ⟨hrun, List.forall_mem_singleton.mpr hk⟩
      | true =>
        by_cases h : (plain pre).length + run.countP CodePoint.replaced + c.bytes.length < 240
        · refine .inl ⟨pre ++ run ++ [c], [], by simp, ?_, by simp⟩
          rw [plain_append, plain_append, plain_cons, plain_nil, List.append_nil, written_kept hk,
            List.length_append, List.length_append, plain_run hrun]
          exact h
        · exact .inr ⟨pre, run, c, [], rfl, hbelow, hrun, hk, Nat.le_of_not_lt h⟩
    · exact .inr ⟨pre, run, d, post ++ [c], by simp, hbelow, hrun, hd, h⟩

theorem Written.eq {y : List UInt8} (h : Written rest x) (h' : Written rest y) : x = y := by
  cases h with
  | extension hx =>
    cases h' with
    | extension hy => rw [hx.eq hy]
    | nothing hy => exact absurd hx (hy _)
  | nothing hx =>
    cases h' with
    | extension hy => exact absurd hy (hx _)
    | nothing hy => rfl

theorem sanitize_out (element : List UInt8) :
    ∃ x, Written ((splitLimit 0 (codePoints element)).2.flatMap CodePoint.bytes) x ∧
      (sanitize element).out = plain (splitLimit 0 (codePoints element)).1 ++ x := by
  obtain ⟨x, hx, hout⟩ := @sanitizeLoop_out element element.length {} rfl (Nat.le_add_left _ _)
  exact ⟨x, hx, hout⟩

/-- Below the limit the whole element is written. -/
theorem sanitize_of_run (hsplit : codePoints element = pre ++ run)
    (hbelow : (plain pre).length < 240) (hrun : ∀ d ∈ run, d.kept = false) :
    (sanitize element).out = plain pre ++ plain run := by
  obtain ⟨x, hx, hout⟩ := sanitize_out element
  have hrest : splitLimit 0 (codePoints element) = (pre ++ run, []) := by
    have hrun := @splitLimit_run (0 + (plain pre).length) [] run hrun
    rw [hsplit, splitLimit_below (by omega)]
    rw [List.append_nil] at hrun
    rw [hrun]
    simp [splitLimit]
  rw [hrest] at hx hout
  rw [hout, hx.eq written_nil, plain_append, List.append_nil]

/-- At the limit the extension follows. -/
theorem Cut.sanitize_out (h : Cut element pre run c post)
    (hx : Written (post.flatMap CodePoint.bytes) x) :
    (sanitize element).out = plain pre ++ plain run ++ c.bytes ++ x := by
  obtain ⟨y, hy, hout⟩ := Torrent.sanitize_out element
  have hrest : splitLimit 0 (codePoints element) = (pre ++ run ++ [c], post) := by
    have hreached := h.reached
    have hcut := @splitLimit_cut (0 + (plain pre).length + (plain run).length) c post
      ⟨h.kept, by rw [plain_run h.unkept, written_kept h.kept]; omega⟩
    rw [h.split, List.append_assoc, splitLimit_below (by have := h.below; omega),
      splitLimit_run h.unkept, hcut]
    simp
  rw [hrest] at hy hout
  rw [hout, hy.eq hx, plain_append, plain_append, plain_cons, plain_nil, List.append_nil,
    written_kept h.kept]

/-- The run of replaced code points where the limit is crossed is short enough for what is around
it: the element ends in it, or the next character reaches the limit and the extension follows. -/
structure RunsFit (element : List UInt8) : Prop where
  atEnd : ∀ pre run, codePoints element = pre ++ run → (plain pre).length < 240 →
    (∀ d ∈ run, d.kept = false) → (plain pre).length + run.countP CodePoint.replaced ≤ 255
  atLimit : ∀ pre run c post x, Cut element pre run c post →
    Written (post.flatMap CodePoint.bytes) x →
    (plain pre).length + run.countP CodePoint.replaced + c.bytes.length + x.length ≤ 255

theorem exists_written (rest : List UInt8) : ∃ x, Written rest x := by
  by_cases h : ∃ ext, Extension rest ext
  · obtain ⟨ext, hext⟩ := h
    exact ⟨_, .extension hext⟩
  · exact ⟨[], .nothing (not_exists.mp h)⟩

theorem runsFit_iff_length : RunsFit element ↔ (sanitize element).out.length ≤ 255 := by
  constructor
  · intro h
    rcases exists_run_or_cut (codePoints element) with
      ⟨pre, run, hsplit, hbelow, hrun⟩ | ⟨pre, run, c, post, hsplit, hbelow, hrun, hc, hreached⟩
    · rw [sanitize_of_run hsplit hbelow hrun, List.length_append, plain_run hrun]
      exact h.atEnd pre run hsplit hbelow hrun
    · have hcut : Cut element pre run c post := ⟨hsplit, hbelow, hrun, hc, hreached⟩
      obtain ⟨x, hx⟩ := exists_written (post.flatMap CodePoint.bytes)
      rw [hcut.sanitize_out hx]
      simp only [List.length_append]
      rw [plain_run hrun]
      exact h.atLimit pre run c post x hcut hx
  · intro h
    refine ⟨?_, ?_⟩
    · intro pre run hsplit hbelow hrun
      rw [sanitize_of_run hsplit hbelow hrun, List.length_append, plain_run hrun] at h
      exact h
    · intro pre run c post x hcut hx
      rw [hcut.sanitize_out hx] at h
      simp only [List.length_append] at h
      rw [plain_run hcut.unkept] at h
      exact h

/-! ## The path -/

/-- What is done with an element: the path stays as it is, and then the element is short, or what is
written for the element is appended, an underscore for an empty one. -/
theorem sanitizeAppendPathElement_out (path element : List UInt8) :
    (sanitizeAppendPathElement path element = path ∧ (sanitize element).out.length ≤ 2) ∨
    ∃ s, Component s ∧ sanitizeAppendPathElement path element = appendComponent path s ∧
      (s = (sanitize element).out ∨ s = [ascii '_'] ∧ (sanitize element).out = []) := by
  obtain ⟨t, hsep, happend⟩ := appendComponent_eq path
  simp only [sanitizeAppendPathElement, hsep, happend]
  split_ifs with hdot hempty hrevert hnil
  · exact .inl ⟨rfl, by rw [hdot]; decide⟩
  · exact .inr ⟨_, ⟨clean_underscore, by decide, by decide, by decide⟩, rfl,
      .inr ⟨rfl, by rw [hempty]; rfl⟩⟩
  · rw [← happend, take_separated]
    exact .inl ⟨rfl, hrevert.2⟩
  · rw [← happend, List.append_eq_nil_iff] at hnil
    exact absurd hnil.2 (component_sanitize hrevert).ne_nil
  · exact .inr ⟨_, component_sanitize hrevert, rfl, .inl rfl⟩

theorem appendComponent_length (path s : List UInt8) :
    (appendComponent path s).length = path.length + (if path = [] then 0 else 1) + s.length := by
  rw [appendComponent]
  split_ifs with h
  · simp [h]
  · simp only [List.length_append, List.length_cons]
    omega

/-- What the file system asks of the path after an element has been added: it is the path before, or
it has one element more, of 1 to 255 bytes of text; and where the limit has been reached and an
extension is left, it ends with the extension, filtered and replaced characters aside. -/
structure FitsFileSystem (path element result : List UInt8) : Prop where
  appended : result = path ∨
    ∃ s, result = appendComponent path s ∧ 1 ≤ s.length ∧ s.length ≤ 255 ∧ Utf8.IsText s
  extension : ∀ pre run c post ext, Cut element pre run c post →
    Extension (post.flatMap CodePoint.bytes) ext → plain (codePoints ext) <:+ result

/-- The element that is appended fits exactly when the runs of replaced code points do. -/
theorem fitsFileSystem_iff (path element : List UInt8) :
    FitsFileSystem path element (sanitizeAppendPathElement path element) ↔ RunsFit element := by
  rw [runsFit_iff_length]
  constructor
  · rintro ⟨happended, -⟩
    rcases sanitizeAppendPathElement_out path element with
      ⟨-, hshort⟩ | ⟨s, hs, heq, rfl | ⟨-, hnil⟩⟩
    · exact hshort.trans (by decide)
    · have hlen := congrArg List.length heq
      have hpos := List.length_pos_iff.mpr hs.ne_nil
      rw [appendComponent_length] at hlen
      rcases happended with hpath | ⟨s', hs', -, hle, -⟩
      · rw [hpath] at hlen
        omega
      · rw [hs', appendComponent_length] at hlen
        omega
    · rw [hnil]
      exact Nat.zero_le _
  · intro h
    refine ⟨?_, ?_⟩
    · rcases sanitizeAppendPathElement_out path element with ⟨heq, -⟩ | ⟨s, hs, heq, hout⟩
      · exact .inl heq
      · refine .inr ⟨s, heq, List.length_pos_iff.mpr hs.ne_nil, ?_, hs.clean.text⟩
        rcases hout with rfl | ⟨rfl, -⟩
        · exact h
        · decide
    · intro pre run c post ext hcut hext
      have hout := hcut.sanitize_out (.extension hext)
      have hlong : 240 ≤ (sanitize element).out.length := by
        have hreached := hcut.reached
        rw [hout]
        simp only [List.length_append]
        rw [plain_run hcut.unkept]
        omega
      obtain ⟨t, -, happend⟩ := appendComponent_eq path
      rcases sanitizeAppendPathElement_out path element with
        ⟨-, hshort⟩ | ⟨s, -, heq, rfl | ⟨-, hnil⟩⟩
      · omega
      · rw [heq, ← happend, hout]
        exact List.suffix_append_of_suffix (List.suffix_append _ _)
      · rw [hnil] at hlong
        exact absurd hlong (by decide)

theorem codePoints_invalid (k : ℕ) :
    codePoints (List.replicate k 0xFF) = List.replicate k ⟨none, [0xFF]⟩ := by
  induction k with
  | zero => rfl
  | succ k ih =>
    have hfirst : parseUtf8Codepoint (List.replicate (k + 1) 0xFF) = (none, 1) := rfl
    have hne : List.replicate (k + 1) (0xFF : UInt8) ≠ [] := List.cons_ne_nil _ _
    rw [codePoints_of_ne_nil hne, firstCodePoint, hfirst]
    exact congrArg (⟨none, [0xFF]⟩ :: ·) ih

theorem sanitize_invalid (k : ℕ) : (sanitize (List.replicate k 0xFF)).out.length = k := by
  have hrun : ∀ d ∈ List.replicate k (⟨none, [0xFF]⟩ : CodePoint), d.kept = false := fun d hd => by
    rw [List.eq_of_mem_replicate hd]
    rfl
  have hout := sanitize_of_run (codePoints_invalid k) (by simp : (plain []).length < 240) hrun
  rw [hout, plain_nil, List.nil_append, plain_run hrun, List.countP_replicate]
  rfl

/-- An element of 256 bytes that are not text. -/
theorem not_fitsFileSystem :
    ¬ ∀ path element, FitsFileSystem path element (sanitizeAppendPathElement path element) := by
  intro h
  have hlen := sanitize_invalid 256
  have happended := (h [] (List.replicate 256 0xFF)).appended
  generalize List.replicate 256 (0xFF : UInt8) = element at hlen happended
  rcases sanitizeAppendPathElement_out [] element with ⟨-, hshort⟩ | ⟨s, -, heq, rfl | ⟨-, hnil⟩⟩
  · omega
  · rcases happended with hnil | ⟨s, hs, -, hle, -⟩
    · have hzero := congrArg List.length (heq.symm.trans hnil)
      rw [appendComponent_length, hlen] at hzero
      cases hzero
    · have hsize := congrArg List.length (heq.symm.trans hs)
      rw [appendComponent_length, appendComponent_length, hlen] at hsize
      omega
  · rw [hnil] at hlen
    cases hlen

end Torrent

end LibtorrentSN
