import LibtorrentSN.Utf8
import LibtorrentSN.Bencode.Decode

/-!
# Sanitising path elements

The names of the files of a torrent come from its info dictionary. `sanitize_append_path_element`
(`src/torrent_info.cpp`) appends one of them to a path: it reads the element code point by code point
(`src/utf8.cpp`), leaves out those that separate directories or turn the direction of writing, and
writes an underscore for what is not valid. An element that comes out as `.` or `..` is taken back.
-/

namespace LibtorrentSN

namespace Torrent

open Bencode (ascii)

variable {str element path out : List UInt8} {b : UInt8} {c n : ℕ}

/-! ## Code points -/

/-- The number of bytes in the sequence that starts with this byte, 0 if there is none. -/
def utf8SequenceLength (b : UInt8) : ℕ :=
  if b.toNat < 0b10000000 then 1
  else if b.toNat >>> 5 = 0b110 then 2
  else if b.toNat >>> 4 = 0b1110 then 3
  else if b.toNat >>> 3 = 0b11110 then 4
  -- an invalid lead byte, but this many bytes are skipped
  else if b.toNat >>> 2 = 0b111110 then 5
  else 0

def maxCodepoint : ℕ := 0x10ffff

def surrogateStart : ℕ := 0xd800

def surrogateEnd : ℕ := 0xdfff

/-- The bits of the first byte of a sequence. -/
def leadBits (sequenceLen : ℕ) (b : UInt8) : ℕ :=
  if sequenceLen = 2 then b.toNat % 2 ^ 5
  else if sequenceLen = 3 then b.toNat % 2 ^ 4
  else b.toNat % 2 ^ 3

/-- Six bits of each of the other bytes. -/
def continuation : ℕ → List UInt8 → Option ℕ
  | ch, [] => some ch
  | ch, b :: bs => if 0b10111111 < b ∨ b < 0b10000000 then none
    else continuation (ch * 2 ^ 6 + b.toNat % 2 ^ 6) bs

/-- The least code point that needs so many bytes. -/
def shortest (sequenceLen : ℕ) : ℕ :=
  if sequenceLen = 2 then 0x80 else if sequenceLen = 3 then 0x800 else 0x10000

/-- The code point, `none` for the source's -1, and the number of bytes it takes. -/
def parseUtf8Codepoint (str : List UInt8) : Option ℕ × ℕ :=
  match str with
  | [] => (none, 0)
  | b :: rest =>
    let sequenceLen := utf8SequenceLength b
    if sequenceLen = 1 then (some b.toNat, sequenceLen)
    else if sequenceLen = 0 then (none, 1)
    else if 4 < sequenceLen then (none, sequenceLen)
    else if str.length < sequenceLen then (none, str.length)
    else match continuation (leadBits sequenceLen b) (rest.take (sequenceLen - 1)) with
      | none => (none, sequenceLen)
      | some ch =>
        if ch < shortest sequenceLen then (none, sequenceLen)
        else if maxCodepoint < ch then (none, sequenceLen)
        else if surrogateStart ≤ ch ∧ ch ≤ surrogateEnd then (none, sequenceLen)
        else (some ch, sequenceLen)

/-! ## Elements -/

/-- `strchr` finds nothing but the terminator in the empty string, and that is below 32. -/
def validPathCharacter (c : ℕ) : Bool := 32 ≤ c

/-- `strchr` finds the terminator too: a null character is left out. -/
def filterPathCharacter (c : ℕ) : Bool :=
  c ∈ [0x202a, 0x202b, 0x202c, 0x202d, 0x202e, 0x200e, 0x200f] ∨ c = '/'.toNat ∨ c = '\\'.toNat ∨ c = 0

/-- The loop variables of `sanitize_append_path_element`. `out` is what has been added to the path,
`added` is its length, and `num_dots` is a `char`. -/
structure Sanitizing where
  i : ℕ := 0
  out : List UInt8 := []
  numDots : ℤ := 0
  foundExtension : Bool := false

/-- The last dot among the last nine bytes, but after `i`. -/
def extensionDot (element : List UInt8) (i : ℕ) : Option ℕ :=
  ((List.range element.length).filter fun j =>
    max (element.length - 10) i < j ∧ element[j]? = some (ascii '.')).getLast?

/-- Add a code point that is valid. -/
def Sanitizing.push (s : Sanitizing) (element : List UInt8) (codePoint seqLen : ℕ) : Sanitizing :=
  { s with
    i := s.i + seqLen
    out := s.out ++ (element.drop s.i).take seqLen
    numDots := if codePoint = '.'.toNat then (s.numDots + 1).bmod 256 else s.numDots }

/-- Add an underscore in place of one that is not. -/
def Sanitizing.replace (s : Sanitizing) (seqLen : ℕ) : Sanitizing :=
  { s with i := s.i + seqLen, out := s.out ++ [ascii '_'] }

/-- The loop over the code points. The fuel is the number of turns. -/
def sanitizeLoop (element : List UInt8) : ℕ → Sanitizing → Sanitizing
  | 0, s => s
  | fuel + 1, s =>
    if element.length ≤ s.i then s
    else match parseUtf8Codepoint (element.drop s.i) with
      | (none, seqLen) => sanitizeLoop element fuel (s.replace seqLen)
      | (some codePoint, seqLen) =>
        if filterPathCharacter codePoint then
          sanitizeLoop element fuel { s with i := s.i + seqLen }
        else if validPathCharacter codePoint = false then
          sanitizeLoop element fuel (s.replace seqLen)
        else
          let pushed := s.push element codePoint seqLen
          if 240 ≤ pushed.out.length ∧ s.foundExtension = false then
            match extensionDot element s.i with
            | none => pushed
            -- the source goes to `dot - seq_len`, and the loop adds `seq_len`
            | some dot => sanitizeLoop element fuel { pushed with foundExtension := true, i := dot }
          else sanitizeLoop element fuel pushed

/-- What the loop adds for an element. -/
def sanitize (element : List UInt8) : Sanitizing := sanitizeLoop element element.length {}

def sanitizeAppendPathElement (path element : List UInt8) : List UInt8 :=
  if element = [ascii '.'] then path
  else
    let separated := if path = [] then path else path ++ [ascii '/']
    if element = [] then separated ++ [ascii '_']
    else
      let s := sanitize element
      let appended := separated ++ s.out
      if s.out.length = s.numDots ∧ s.out.length ≤ 2 then
        -- the separator goes too
        appended.take (appended.length - s.out.length - (separated.length - path.length))
      else if appended = [] then [ascii '_']
      else appended

/-! ## Specifications -/

theorem utf8SequenceLength_cases (b : UInt8) :
    (utf8SequenceLength b = 1 ∧ b.toNat < 128) ∨
    (utf8SequenceLength b = 2 ∧ 192 ≤ b.toNat ∧ b.toNat < 224) ∨
    (utf8SequenceLength b = 3 ∧ 224 ≤ b.toNat ∧ b.toNat < 240) ∨
    (utf8SequenceLength b = 4 ∧ 240 ≤ b.toNat ∧ b.toNat < 248) ∨
    utf8SequenceLength b = 5 ∨ utf8SequenceLength b = 0 := by
  simp only [utf8SequenceLength, Nat.shiftRight_eq_div_pow]
  split_ifs <;> omega

theorem parseUtf8Codepoint_pos (h : str ≠ []) : 0 < (parseUtf8Codepoint str).2 := by
  obtain ⟨b, rest, rfl⟩ := List.exists_cons_of_ne_nil h
  rw [parseUtf8Codepoint]
  split_ifs with h1 h0
  · exact h1 ▸ Nat.one_pos
  · exact Nat.one_pos
  · exact Nat.pos_of_ne_zero h0
  · exact Nat.succ_pos _
  · split
    · exact Nat.pos_of_ne_zero h0
    · split_ifs <;> exact Nat.pos_of_ne_zero h0

theorem continuation_cons {x : UInt8} {xs : List UInt8} {ch v : ℕ}
    (h : continuation ch (x :: xs) = some v) :
    Utf8.Continues x ∧ continuation (ch * 64 + x.toNat % 64) xs = some v := by
  rw [continuation, Option.ite_none_left_eq_some, not_or, UInt8.not_lt, UInt8.not_lt] at h
  exact ⟨⟨h.1.2, h.1.1⟩, h.2⟩

theorem parseUtf8Codepoint_one {rest : List UInt8} (hl : utf8SequenceLength b = 1) :
    parseUtf8Codepoint (b :: rest) = (some b.toNat, 1) := by
  rw [parseUtf8Codepoint, if_pos hl, hl]

/-- A sequence of several bytes that is accepted. -/
theorem parseUtf8Codepoint_several {rest : List UInt8} (hl : 2 ≤ utf8SequenceLength b)
    (h : parseUtf8Codepoint (b :: rest) = (some c, n)) :
    n = utf8SequenceLength b ∧ n ≤ 4 ∧ n ≤ rest.length + 1 ∧
    continuation (leadBits n b) (rest.take (n - 1)) = some c ∧ shortest n ≤ c ∧ c.isValidChar := by
  rw [parseUtf8Codepoint] at h
  rw [if_neg (by omega), if_neg (by omega)] at h
  split_ifs at h with h4 hlen
  · cases h
  · cases h
  · split at h
    · cases h
    · next ch hch =>
      split_ifs at h with hshort hmax hsur
      · cases h
      · cases h
      · cases h
      · obtain ⟨hc, rfl⟩ := Prod.mk.inj h
        obtain rfl := Option.some.inj hc
        refine ⟨rfl, by omega, Nat.le_of_not_lt hlen, hch, Nat.le_of_not_lt hshort, ?_⟩
        simp only [maxCodepoint, surrogateStart, surrogateEnd] at hmax hsur
        rw [Nat.isValidChar]
        omega

/-- The bytes of a code point that is accepted are its encoding. -/
theorem parseUtf8Codepoint_some (h : parseUtf8Codepoint str = (some c, n)) :
    ∃ ch : Char, ch.val.toNat = c ∧ n ≤ str.length ∧ str.take n = String.utf8EncodeChar ch := by
  cases str with
  | nil => cases h
  | cons b rest =>
    rcases utf8SequenceLength_cases b with ⟨hl, hb⟩ | ⟨hl, hb⟩ | ⟨hl, hb⟩ | ⟨hl, hb⟩ | hl | hl
    · rw [parseUtf8Codepoint_one hl] at h
      obtain ⟨hc, rfl⟩ := Prod.mk.inj h
      obtain rfl := Option.some.inj hc
      have hvalid : b.toNat.isValidChar := .inl (by omega)
      exact ⟨Char.ofNatAux _ hvalid, rfl, Nat.succ_le_of_lt (Nat.succ_pos _),
        (Utf8.encodeChar_one rfl hb).symm⟩
    · obtain ⟨rfl, -, hlen, hch, hlow, hvalid⟩ := parseUtf8Codepoint_several (by omega) h
      rw [hl] at hlen hch hlow ⊢
      match rest, hlen with
      | x :: rest, _ =>
        obtain ⟨hx, hc⟩ := continuation_cons hch
        obtain rfl := Option.some.inj hc
        exact ⟨Char.ofNatAux _ hvalid, rfl, by simp,
          (Utf8.encodeChar_two (c := Char.ofNatAux _ hvalid) rfl hb hx hlow).symm⟩
    · obtain ⟨rfl, -, hlen, hch, hlow, hvalid⟩ := parseUtf8Codepoint_several (by omega) h
      rw [hl] at hlen hch hlow ⊢
      match rest, hlen with
      | x :: y :: rest, _ =>
        obtain ⟨hx, hch⟩ := continuation_cons hch
        obtain ⟨hy, hc⟩ := continuation_cons hch
        obtain rfl := Option.some.inj hc
        exact ⟨Char.ofNatAux _ hvalid, rfl, by simp,
          (Utf8.encodeChar_three (c := Char.ofNatAux _ hvalid) rfl hb hx hy hlow).symm⟩
    · obtain ⟨rfl, -, hlen, hch, hlow, hvalid⟩ := parseUtf8Codepoint_several (by omega) h
      rw [hl] at hlen hch hlow ⊢
      match rest, hlen with
      | x :: y :: z :: rest, _ =>
        obtain ⟨hx, hch⟩ := continuation_cons hch
        obtain ⟨hy, hch⟩ := continuation_cons hch
        obtain ⟨hz, hc⟩ := continuation_cons hch
        obtain rfl := Option.some.inj hc
        exact ⟨Char.ofNatAux _ hvalid, rfl, by simp,
          (Utf8.encodeChar_four (c := Char.ofNatAux _ hvalid) rfl hb hx hy hz hlow).symm⟩
    · obtain ⟨rfl, h4, -⟩ := parseUtf8Codepoint_several (by omega) h
      omega
    · rw [parseUtf8Codepoint, if_neg (by omega), if_pos hl] at h
      cases h

/-! ## What is written for an element -/

/-- Text without control characters and without separators of either kind. -/
structure Clean (s : List UInt8) : Prop where
  text : Utf8.IsText s
  bytes : ∀ b ∈ s, 32 ≤ b ∧ b ≠ ascii '/' ∧ b ≠ ascii '\\'

theorem Clean.append {s t : List UInt8} (hs : Clean s) (ht : Clean t) : Clean (s ++ t) where
  text := hs.text.append ht.text
  bytes := by
    intro b hb
    exact (List.mem_append.mp hb).elim (hs.bytes b) (ht.bytes b)

theorem clean_nil : Clean [] := ⟨Utf8.isText_nil, by simp⟩

theorem clean_of_forall {s : List UInt8}
    (h : ∀ b ∈ s, 32 ≤ b ∧ b ≠ ascii '/' ∧ b ≠ ascii '\\' ∧ b.toNat < 128) : Clean s := by
  induction s with
  | nil => exact clean_nil
  | cons b s ih =>
    obtain ⟨⟨h32, hslash, hback, hlow⟩, hs⟩ := List.forall_mem_cons.mp h
    have hb : Clean [b] :=
      ⟨Utf8.isText_ascii hlow, List.forall_mem_singleton.mpr ⟨h32, hslash, hback⟩⟩
    exact hb.append (ih hs)

theorem clean_underscore : Clean [ascii '_'] where
  text := Utf8.isText_ascii (by decide)
  bytes := List.forall_mem_singleton.mpr (by decide)

/-- The bytes of an accepted code point: one, or none of them ASCII. -/
theorem parseUtf8Codepoint_bytes (h : parseUtf8Codepoint str = (some c, n)) :
    str.take n = [UInt8.ofNat c] ∧ c < 128 ∨ 128 ≤ c ∧ ∀ b ∈ str.take n, 0x80 ≤ b := by
  obtain ⟨ch, rfl, -, htake⟩ := parseUtf8Codepoint_some h
  rw [htake]
  rcases Nat.lt_or_ge ch.val.toNat 128 with hlt | hge
  · have htoNat : (UInt8.ofNat ch.val.toNat).toNat = ch.val.toNat := by
      rw [UInt8.toNat_ofNat', Nat.mod_eq_of_lt (by omega)]
    exact .inl ⟨Utf8.encodeChar_one htoNat.symm (by omega), hlt⟩
  · exact .inr ⟨hge, Utf8.encodeChar_high hge⟩

theorem clean_take (h : parseUtf8Codepoint str = (some c, n)) (hf : filterPathCharacter c = false)
    (hv : validPathCharacter c = true) : Clean (str.take n) := by
  refine ⟨?_, ?_⟩
  · obtain ⟨ch, -, -, htake⟩ := parseUtf8Codepoint_some h
    exact htake ▸ Utf8.isText_char ch
  · simp only [filterPathCharacter, decide_eq_false_iff_not, not_or] at hf
    simp only [validPathCharacter, decide_eq_true_eq] at hv
    rcases parseUtf8Codepoint_bytes h with ⟨htake, hlt⟩ | ⟨hge, hbytes⟩
    · have htoNat : (UInt8.ofNat c).toNat = c := by rw [UInt8.toNat_ofNat', Nat.mod_eq_of_lt (by omega)]
      rw [htake]
      refine List.forall_mem_singleton.mpr ⟨?_, ?_, ?_⟩
      · rw [UInt8.le_iff_toNat_le, htoNat]
        exact hv
      · exact fun heq => hf.2.1 (htoNat ▸ congrArg UInt8.toNat heq)
      · exact fun heq => hf.2.2.1 (htoNat ▸ congrArg UInt8.toNat heq)
    · intro b hb
      have hb := UInt8.le_iff_toNat_le.mp (hbytes b hb)
      refine ⟨UInt8.le_iff_toNat_le.mpr (le_trans (by decide) hb), ?_, ?_⟩
      · rintro rfl
        exact absurd hb (by decide)
      · rintro rfl
        exact absurd hb (by decide)

theorem count_dot_take (h : parseUtf8Codepoint str = (some c, n)) :
    (str.take n).count (ascii '.') = if c = '.'.toNat then 1 else 0 := by
  rcases parseUtf8Codepoint_bytes h with ⟨htake, hlt⟩ | ⟨hge, hbytes⟩
  · rw [htake, List.count_singleton]
    have htoNat : (UInt8.ofNat c).toNat = c := by rw [UInt8.toNat_ofNat', Nat.mod_eq_of_lt (by omega)]
    have hiff : UInt8.ofNat c = ascii '.' ↔ c = '.'.toNat := by
      rw [← UInt8.toNat_inj, htoNat]
      rfl
    simp only [beq_iff_eq, hiff]
  · have hne : c ≠ '.'.toNat := fun heq => absurd (heq ▸ hge) (by decide)
    rw [if_neg hne, List.count_eq_zero]
    exact fun hmem => absurd (hbytes _ hmem) (by decide)

/-- What the loop keeps: clean output, with its dots counted as a `char` counts. -/
structure Sanitizing.Sound (s : Sanitizing) : Prop where
  clean : Clean s.out
  dots : s.numDots = (s.out.count (ascii '.') : ℤ).bmod 256

theorem Sanitizing.Sound.replace {s : Sanitizing} (hs : s.Sound) (seqLen : ℕ) :
    (s.replace seqLen).Sound where
  clean := hs.clean.append clean_underscore
  dots := by
    rw [Sanitizing.replace, List.count_append]
    exact hs.dots

theorem Sanitizing.Sound.push {s : Sanitizing} (hs : s.Sound)
    (h : parseUtf8Codepoint (element.drop s.i) = (some c, n)) (hf : filterPathCharacter c = false)
    (hv : validPathCharacter c = true) : (s.push element c n).Sound where
  clean := hs.clean.append (clean_take h hf hv)
  dots := by
    rw [Sanitizing.push, List.count_append, count_dot_take h]
    split_ifs
    · rw [hs.dots, Nat.cast_add, Nat.cast_one, Int.bmod_add_bmod]
    · exact hs.dots

theorem sanitizeLoop_sound (element : List UInt8) (fuel : ℕ) {s : Sanitizing} (hs : s.Sound) :
    (sanitizeLoop element fuel s).Sound := by
  induction fuel generalizing s with
  | zero => exact hs
  | succ fuel ih =>
    rw [sanitizeLoop]
    split
    · exact hs
    · split
      · exact ih (hs.replace _)
      · next c n hparse =>
        split
        · exact ih ⟨hs.clean, hs.dots⟩
        · next hf =>
          split
          · exact ih (hs.replace _)
          · next hv =>
            have hpush := hs.push hparse (Bool.eq_false_iff.mpr hf) (Bool.eq_true_of_not_eq_false hv)
            dsimp only
            split
            · split
              · exact hpush
              · exact ih ⟨hpush.clean, hpush.dots⟩
            · exact ih hpush

theorem lt_of_extensionDot {i dot : ℕ} (h : extensionDot element i = some dot) : i < dot := by
  have hmem := List.mem_of_getLast? h
  have hdot := of_decide_eq_true (List.mem_filter.mp hmem).2
  exact lt_of_le_of_lt (le_max_right _ _) hdot.1

/-- One component of a path. -/
structure Component (s : List UInt8) : Prop where
  clean : Clean s
  ne_nil : s ≠ []
  ne_dot : s ≠ [ascii '.']
  ne_dotdot : s ≠ [ascii '.', ascii '.']

/-- The path with one more component. -/
def appendComponent (path s : List UInt8) : List UInt8 :=
  if path = [] then s else path ++ ascii '/' :: s

theorem component_sanitize (h : ¬ ((sanitize element).out.length = (sanitize element).numDots ∧
    (sanitize element).out.length ≤ 2)) : Component (sanitize element).out := by
  have hs : (sanitize element).Sound := sanitizeLoop_sound element _ ⟨clean_nil, by decide⟩
  refine ⟨hs.clean, ?_, ?_, ?_⟩ <;>
  · intro hout
    rw [hs.dots, hout] at h
    exact h (by decide)

/-- The path before a component is added. -/
theorem take_separated (path t out : List UInt8) :
    (path ++ t ++ out).take ((path ++ t ++ out).length - out.length - ((path ++ t).length - path.length)) =
      path := by
  have hlen : (path ++ t ++ out).length - out.length - ((path ++ t).length - path.length) =
      path.length := by
    simp only [List.length_append]
    omega
  rw [hlen, List.append_assoc, List.take_left]

theorem appendComponent_eq (path : List UInt8) : ∃ t, (if path = [] then path else path ++ [ascii '/']) =
    path ++ t ∧ ∀ s, path ++ t ++ s = appendComponent path s := by
  by_cases hpath : path = []
  · exact ⟨[], by simp [hpath], fun s => by simp [appendComponent, hpath]⟩
  · exact ⟨[ascii '/'], by simp [hpath], fun s => by simp [appendComponent, hpath]⟩

/-- An element leaves the path as it is, or it adds a component. -/
theorem sanitizeAppendPathElement_cases (path element : List UInt8) :
    sanitizeAppendPathElement path element = path ∨
    ∃ s, Component s ∧ sanitizeAppendPathElement path element = appendComponent path s := by
  obtain ⟨t, hsep, happend⟩ := appendComponent_eq path
  simp only [sanitizeAppendPathElement, hsep, happend]
  split_ifs with hdot hempty hrevert hnil
  · exact .inl rfl
  · exact .inr ⟨_, ⟨clean_underscore, by decide, by decide, by decide⟩, rfl⟩
  · rw [← happend, take_separated]
    exact .inl rfl
  · -- a component that is not taken back is not empty
    rw [← happend, List.append_eq_nil_iff] at hnil
    exact absurd hnil.2 (component_sanitize hrevert).ne_nil
  · exact .inr ⟨_, component_sanitize hrevert, rfl⟩

/-! ## Paths -/

/-- The directories of a path and its file. -/
def components (path : List UInt8) : List (List UInt8) := path.splitOn (ascii '/')

/-- A relative path that goes down only, in plain text. -/
structure Inside (path : List UInt8) : Prop where
  relative : path.head? ≠ some (ascii '/')
  components : ∀ s ∈ components path, s ≠ [] ∧ s ≠ [ascii '.'] ∧ s ≠ [ascii '.', ascii '.']
  bytes : ∀ b ∈ path, b ≠ 0 ∧ 32 ≤ b ∧ b ≠ ascii '\\'
  text : Utf8.IsText path

variable {q s : List UInt8}

theorem components_ne_nil (path : List UInt8) : components path ≠ [] := List.splitOn_ne_nil _ _

theorem components_append (path q : List UInt8) :
    components (path ++ ascii '/' :: q) = components path ++ components q :=
  List.splitOn_append_cons_self path q

theorem components_singleton (h : ascii '/' ∉ path) : components path = [path] :=
  List.splitOn_eq_singleton h

theorem Inside.ne_nil (h : Inside path) : path ≠ [] := by
  rintro rfl
  exact (h.components [] (List.mem_singleton_self _)).1 rfl

theorem Component.not_mem (h : Component s) : ascii '/' ∉ s :=
  fun hmem => (h.clean.bytes _ hmem).2.1 rfl

/-- A name between separators. -/
structure Named (s : List UInt8) : Prop where
  ne_nil : s ≠ []
  not_mem : ascii '/' ∉ s

theorem Component.named (h : Component s) : Named s := ⟨h.ne_nil, h.not_mem⟩

theorem Named.head?_ne (h : Named s) : s.head? ≠ some (ascii '/') :=
  fun hhead => h.not_mem (List.mem_of_head? hhead)

theorem Named.getLast?_ne (h : Named s) : s.getLast? ≠ some (ascii '/') :=
  fun hlast => h.not_mem (List.mem_of_getLast? hlast)

theorem Named.forall_ne (h : Named s) : ∀ b ∈ s, (decide (b ≠ ascii '/')) = true := by
  intro b hb
  simpa using fun heq : b = ascii '/' => h.not_mem (heq ▸ hb)

theorem Component.inside (h : Component s) : Inside s where
  relative := fun hhead => h.not_mem (List.mem_of_mem_head? hhead)
  components := by
    rw [components_singleton h.not_mem]
    exact List.forall_mem_singleton.mpr ⟨h.ne_nil, h.ne_dot, h.ne_dotdot⟩
  bytes := by
    intro b hb
    obtain ⟨h32, -, hback⟩ := h.clean.bytes b hb
    refine ⟨?_, h32, hback⟩
    rintro rfl
    exact absurd h32 (by decide)
  text := h.clean.text

theorem Inside.append (hp : Inside path) (hq : Inside q) : Inside (path ++ ascii '/' :: q) where
  relative := by
    rw [List.head?_append_of_ne_nil _ hp.ne_nil]
    exact hp.relative
  components := by
    rw [components_append]
    intro s hs
    exact (List.mem_append.mp hs).elim (hp.components s) (hq.components s)
  bytes := by
    intro b hb
    rcases List.mem_append.mp hb with hb | hb
    · exact hp.bytes b hb
    · rcases List.mem_cons.mp hb with rfl | hb
      · decide
      · exact hq.bytes b hb
  text := by
    have hsep : Utf8.IsText [ascii '/'] := Utf8.isText_ascii (by decide)
    exact hp.text.append (hsep.append hq.text)

theorem Inside.right (h : Inside (path ++ ascii '/' :: q)) : Inside q where
  relative := by
    intro hhead
    have hmem : ([] : List UInt8) ∈ Torrent.components q := by
      obtain ⟨q', rfl⟩ := List.head?_eq_some_iff.mp hhead
      exact components_append [] q' ▸ List.mem_append_left _ (List.mem_singleton_self _)
    refine (h.components [] ?_).1 rfl
    rw [components_append]
    exact List.mem_append_right _ hmem
  components := by
    intro s hs
    exact h.components s (components_append path q ▸ List.mem_append_right _ hs)
  bytes := fun b hb => h.bytes b (List.mem_append_right _ (List.mem_cons_of_mem _ hb))
  text := by
    have hsuffix : Utf8.IsText (ascii '/' :: q) := by
      refine (h.text.suffix_iff (List.suffix_append _ _)).mpr ?_
      intro b hb
      obtain rfl := Option.some.inj hb
      decide
    exact hsuffix.tail (by decide)

theorem Inside.getLast?_ne (h : Inside path) : path.getLast? ≠ some (ascii '/') := by
  intro hlast
  obtain ⟨p, rfl⟩ := List.getLast?_eq_some_iff.mp hlast
  refine (h.components [] ?_).1 rfl
  rw [components_append]
  exact List.mem_append_right _ (List.mem_singleton_self _)

theorem Inside.ne_dot (h : Inside path) : path ≠ [ascii '.'] := by
  rintro rfl
  exact (h.components [ascii '.'] (by decide)).2.1 rfl

/-- A suffix of a path: the end of one component, and those after it. -/
theorem components_suffix (h : q <:+ path) : ∃ pre s t rest, components path = pre ++ s :: rest ∧
    t <:+ s ∧ components q = t :: rest := by
  induction path with
  | nil =>
    obtain rfl := List.suffix_nil.mp h
    exact ⟨[], [], [], [], rfl, List.suffix_rfl, rfl⟩
  | cons b path ih =>
    rcases List.suffix_cons_iff.mp h with rfl | h
    · obtain ⟨s, rest, hs⟩ := List.exists_cons_of_ne_nil (List.splitOn_ne_nil (ascii '/') (b :: path))
      exact ⟨[], s, s, rest, hs, List.suffix_rfl, hs⟩
    · obtain ⟨pre, s, t, rest, hpath, ht, hq⟩ := ih h
      have hcons : components (b :: path) = if b == ascii '/' then [] :: components path
          else (components path).modifyHead (List.cons b) :=
        List.splitOn_cons_eq_if_modifyHead b path
      rw [hcons, hpath]
      split_ifs
      · exact ⟨[] :: pre, s, t, rest, rfl, ht, hq⟩
      · cases pre with
        | nil => exact ⟨[], b :: s, t, rest, rfl, ht.trans (List.suffix_cons b s), hq⟩
        | cons p pre => exact ⟨(b :: p) :: pre, s, t, rest, rfl, ht, hq⟩

/-- What a suffix of a path must not be: something that begins with a component of dots, or in the
middle of a character. -/
structure Begins (q : List UInt8) : Prop where
  dot : (components q).head? ≠ some [ascii '.']
  dotdot : (components q).head? ≠ some [ascii '.', ascii '.']
  character : ∀ b ∈ q.head?, ¬ Utf8.Continues b

theorem components_head_ne_nil (hne : q ≠ []) (hhead : q.head? ≠ some (ascii '/')) :
    (components q).head? ≠ some [] := by
  obtain ⟨b, q, rfl⟩ := List.exists_cons_of_ne_nil hne
  have hb : (b == ascii '/') = false := beq_eq_false_iff_ne.mpr fun hb => hhead (hb ▸ rfl)
  have hcons : components (b :: q) = (components q).modifyHead (List.cons b) := by
    rw [components, List.splitOn_cons_eq_if_modifyHead, hb]
    rfl
  obtain ⟨s, rest, hs⟩ := List.exists_cons_of_ne_nil (List.splitOn_ne_nil (ascii '/') q)
  have hs : components q = s :: rest := hs
  rw [hcons, hs]
  exact fun h => List.cons_ne_nil b s (Option.some.inj h)

theorem Inside.suffix_iff (h : Inside path) (hq : q <:+ path) (hne : q ≠ [])
    (hhead : q.head? ≠ some (ascii '/')) : Inside q ↔ Begins q := by
  obtain ⟨pre, s, t, rest, hpath, ht, hcomps⟩ := components_suffix hq
  constructor
  · intro hin
    have ht := hin.components t (hcomps ▸ List.mem_cons_self ..)
    refine ⟨?_, ?_, ?_⟩
    · rw [hcomps]
      exact fun heq => ht.2.1 (Option.some.inj heq)
    · rw [hcomps]
      exact fun heq => ht.2.2 (Option.some.inj heq)
    · exact (h.text.suffix_iff hq).mp hin.text
  · intro hbegins
    refine ⟨hhead, ?_, fun b hb => h.bytes b (hq.subset hb), h.text.suffix hq hbegins.character⟩
    rw [hcomps]
    refine List.forall_mem_cons.mpr ⟨⟨?_, ?_, ?_⟩, ?_⟩
    · rintro rfl
      exact components_head_ne_nil hne hhead (hcomps ▸ rfl)
    · rintro rfl
      exact hbegins.dot (hcomps ▸ rfl)
    · rintro rfl
      exact hbegins.dotdot (hcomps ▸ rfl)
    · intro s hs
      refine h.components s ?_
      rw [hpath]
      exact List.mem_append_right _ (List.mem_cons_of_mem _ hs)

end Torrent

end LibtorrentSN
