import Mathlib

/-!
# The rate limiter

Peers queue their requests for bandwidth at the `bandwidth_manager`. Every channel with a limit gains
quota as time passes, and in each round of `update_quotas` the quota of a channel is shared out between
the requests that are queued for it, in proportion to their priorities. A request is answered once it
has got all it asked for, or has waited long enough and got something.

Channels are named by `κ` and peers by `π`. Amounts are natural numbers: the sums of priorities the source
asserts to be below `INT_MAX`, and quotas have 64 bits.
-/

namespace LibtorrentSN

/-! ## Proportional shares -/

/-- If `q` is shared out in proportion to weights, and the shares are rounded down, no more than `q` is
given away. -/
theorem sum_shares_le {ι : Type} {l : List ι} {w a : ι → ℕ} {q t : ℕ} (ha : ∀ i ∈ l, a i ≤ q * w i / t)
    (hw : (l.map w).sum ≤ t) : (l.map a).sum ≤ q := by
  rcases Nat.eq_zero_or_pos t with rfl | ht
  · have hzero : ∀ i ∈ l, a i = 0 := fun i hi => by simpa using ha i hi
    rw [List.sum_eq_zero fun x hx => ?_]
    · exact Nat.zero_le q
    · obtain ⟨i, hi, rfl⟩ := List.mem_map.mp hx
      exact hzero i hi
  · have hscaled : t * (l.map a).sum ≤ q * (l.map w).sum := by
      rw [← List.sum_map_mul_left, ← List.sum_map_mul_left]
      exact List.sum_le_sum fun i hi => (Nat.mul_le_mul_left t (ha i hi)).trans (Nat.mul_div_le _ t)
    refine Nat.le_of_mul_le_mul_left (hscaled.trans ?_) ht
    rw [Nat.mul_comm t q]
    exact Nat.mul_le_mul_left q hw

/-! ## Channels -/

/-- `bandwidth_channel`. -/
structure BandwidthChannel where
  /-- the priorities of the requests queued for it -/
  tmp : ℕ := 0
  /-- the number of bytes to distribute this round -/
  distributeQuota : ℕ := 0
  /-- `m_quota_left` -/
  quota : ℤ := 0
  /-- in bytes per second, 0 means infinite -/
  limit : ℕ := 0
  deriving DecidableEq, Repr

namespace BandwidthChannel

variable (c : BandwidthChannel)

def inf : ℕ := 2 ^ 31 - 1

def throttle (limit : ℕ) : BandwidthChannel := { c with limit := limit }

/-- `update_quota(dt_milliseconds)`. Both ways the new quota is at most `inf`, so that it fits. -/
def updateQuota (ms : ℕ) : BandwidthChannel :=
  if c.limit = 0 then c
  else
    let toAdd : ℤ := ↑((c.limit * ms + 500) / 1000)
    let quota : ℤ :=
      if inf - c.quota < toAdd then inf
      else
        let quota := c.quota + toAdd
        let quota := if c.limit < quota.tdiv 3 then (c.limit : ℤ) * 3 else quota
        min quota inf
    { c with quota := quota, distributeQuota := (max quota 0).toNat }

def returnQuota (amount : ℕ) : BandwidthChannel :=
  if c.limit = 0 then c else { c with quota := c.quota + amount }

def useQuota (amount : ℕ) : BandwidthChannel :=
  if c.limit = 0 then c else { c with quota := c.quota - amount }

/-- With more than a second of quota built up, the amount is taken right away. -/
def needQueueing (amount : ℕ) : Bool × BandwidthChannel :=
  if c.quota - amount < c.limit then (true, c) else (false, { c with quota := c.quota - amount })

end BandwidthChannel

/-! ## Requests -/

/-- `bw_request`. The channels it waits for come without the null pointers after them; the source has room
for ten. -/
structure BwRequest (π κ : Type) where
  peer : π
  priority : ℕ
  assigned : ℕ
  requestSize : ℕ
  ttl : ℤ
  channel : List κ
  deriving DecidableEq, Repr

variable {π κ : Type} [DecidableEq κ]

/-- All channels. -/
abbrev Channels (κ : Type) := κ → BandwidthChannel

/-- Call `f` on one channel. -/
def Channels.modify (chs : Channels κ) (k : κ) (f : BandwidthChannel → BandwidthChannel) : Channels κ :=
  Function.update chs k (f (chs k))

/-- Call `f` on some channels in turn. -/
def Channels.each (chs : Channels κ) (ks : List κ) (f : BandwidthChannel → BandwidthChannel) : Channels κ :=
  ks.foldl (fun chs k => chs.modify k f) chs

namespace BwRequest

variable (r : BwRequest π κ)

/-- The number of bytes still to be assigned. -/
def left : ℕ := r.requestSize - r.assigned

/-- The smallest of the shares some channels have for the request, and of `quota`. -/
def share (chs : Channels κ) : List κ → ℕ → ℕ
  | [], quota => quota
  | k :: ks, quota =>
    if (chs k).limit = 0 ∨ (chs k).tmp = 0 then share chs ks quota
    else share chs ks (min ((chs k).distributeQuota * r.priority / (chs k).tmp) quota)

/-- `assign_bandwidth()`: what the request gets in this round. Only its first five channels count. -/
def assignBandwidth (chs : Channels κ) : ℕ × BwRequest π κ × Channels κ :=
  let quota := r.left
  let r := { r with ttl := r.ttl - 1 }
  if quota = 0 then (quota, r, chs)
  else
    let channel := r.channel.take 5
    let quota := r.share chs channel quota
    (quota, { r with assigned := r.assigned + quota }, chs.each channel (·.useQuota quota))

/-- What it has got is taken away again. -/
def drop : BwRequest π κ := { r with assigned := 0 }

/-- The request is answered after this round. -/
def done : Prop := r.assigned = r.requestSize ∨ r.ttl ≤ 0 ∧ 0 < r.assigned

instance : Decidable r.done := inferInstanceAs (Decidable (_ ∨ _))

end BwRequest

/-! ## The manager -/

/-- `bandwidth_manager`, with the channels it serves. -/
structure BandwidthManager (π κ : Type) where
  queue : List (BwRequest π κ)
  queuedBytes : ℤ
  abort : Bool
  channels : Channels κ

namespace BandwidthManager

variable (m : BandwidthManager π κ)

/-- A manager without requests. -/
def empty (chs : Channels κ) : BandwidthManager π κ := ⟨[], 0, false, chs⟩

/-- The channels `amount` has to be queued for. The others let it pass at once. -/
def queueFor (amount : ℕ) : List κ → Channels κ → List κ × Channels κ
  | [], chs => ([], chs)
  | k :: ks, chs =>
    let need := (chs k).needQueueing amount
    let rest := queueFor amount ks (Function.update chs k need.2)
    (if need.1 then k :: rest.1 else rest.1, rest.2)

/-- `request_bandwidth`: the number of bytes the peer gets at once, or 0 if it has to wait. -/
def requestBandwidth (peer : π) (blk priority : ℕ) (chan : List κ) : ℕ × BandwidthManager π κ :=
  if m.abort then (0, m)
  else if chan = [] then (blk, m)
  else
    let q := queueFor blk chan m.channels
    if q.1 = [] then (blk, { m with channels := q.2 })
    else (0, { m with
      channels := q.2
      queuedBytes := m.queuedBytes + blk
      queue := m.queue ++ [⟨peer, priority, 0, blk, 20, q.1⟩] })

/-- The requests of peers that are disconnecting return what they have got; the channels of the other
requests get ready for a round. -/
def prepare (disconnecting : π → Bool) (rs : List (BwRequest π κ)) (chs : Channels κ) : Channels κ :=
  rs.foldl (fun chs r =>
    if disconnecting r.peer then chs.each r.channel (·.returnQuota r.assigned)
    else chs.each r.channel ({ · with tmp := 0 })) chs

/-- Add up the priorities of the requests at each channel, and list the channels. -/
def weigh (rs : List (BwRequest π κ)) (chs : Channels κ) : List κ × Channels κ :=
  rs.foldl (fun s r => r.channel.foldl (fun s k =>
    (if (s.2 k).tmp = 0 then s.1 ++ [k] else s.1,
      s.2.modify k fun c => { c with tmp := c.tmp + r.priority })) s) ([], chs)

/-- Every request gets its share: what it got, and the request after that. -/
def distribute : List (BwRequest π κ) → Channels κ → List (ℕ × BwRequest π κ) × Channels κ
  | [], chs => ([], chs)
  | r :: rs, chs =>
    let a := r.assignBandwidth chs
    let rest := distribute rs a.2.2
    ((a.1, a.2.1) :: rest.1, rest.2)

/-- The requests that take part in a round. -/
def staying (disconnecting : π → Bool) : List (BwRequest π κ) := m.queue.filter fun r => !disconnecting r.peer

/-- The requests of the peers that are disconnecting. -/
def leaving (disconnecting : π → Bool) : List (BwRequest π κ) := m.queue.filter fun r => disconnecting r.peer

/-- The channels once they have got their quota for `ms` milliseconds. -/
def refilled (ms : ℕ) (disconnecting : π → Bool) : Channels κ :=
  let w := weigh (m.staying disconnecting) (prepare disconnecting m.queue m.channels)
  w.2.each w.1 (·.updateQuota (min ms 3000))

/-- What a round hands out. -/
def round (ms : ℕ) (disconnecting : π → Bool) : List (ℕ × BwRequest π κ) × Channels κ :=
  distribute (m.staying disconnecting) (m.refilled ms disconnecting)

/-- `update_quotas(dt)`, with the requests that are answered, in that order: `assign_bandwidth` is called on
the peer of each with the bytes assigned. -/
def updateQuotas (ms : ℕ) (disconnecting : π → Bool) : List (BwRequest π κ) × BandwidthManager π κ :=
  if m.abort then ([], m)
  else if m.queue = [] then ([], m)
  else
    let leaving := m.leaving disconnecting
    let round := m.round ms disconnecting
    let answered := (round.1.map (·.2)).filter (·.done)
    ((leaving.map BwRequest.drop ++ answered).reverse,
      { m with
        queue := (round.1.map (·.2)).filter (¬ ·.done)
        queuedBytes := m.queuedBytes - ((leaving.map (·.left)).sum : ℕ) -
          ((round.1.map fun a => a.1 + if a.2.done then a.2.left else 0).sum : ℕ)
        channels := round.2 })

/-- `close()`. -/
def close : List (BwRequest π κ) × BandwidthManager π κ :=
  (m.queue.reverse, { m with abort := true, queue := [], queuedBytes := 0 })

/-- What the requests queued for a channel get in a round. -/
def handedOut (ms : ℕ) (disconnecting : π → Bool) (k : κ) : ℕ :=
  (((m.round ms disconnecting).1.filter fun a => k ∈ a.2.channel).map (·.1)).sum

end BandwidthManager

/-! ## Channels in a round -/

namespace Channels

variable {chs : Channels κ} {k : κ} {f : BandwidthChannel → BandwidthChannel}

theorem modify_apply (chs : Channels κ) (k x : κ) (f : BandwidthChannel → BandwidthChannel) :
    chs.modify k f x = if x = k then f (chs x) else chs x := by
  rw [modify, Function.update_apply]
  split_ifs with h
  · rw [h]
  · rfl

/-- A channel that is not called stays as it is. -/
theorem each_of_not_mem {ks : List κ} (h : k ∉ ks) : chs.each ks f k = chs k := by
  induction ks generalizing chs with
  | nil => rfl
  | cons x ks ih =>
    rw [List.mem_cons, not_or] at h
    rw [each, List.foldl_cons, ← each, ih h.2, modify_apply, if_neg h.1]

/-- What holds of a channel after a call. -/
theorem each_of_mem {ks : List κ} {P : BandwidthChannel → Prop} (hP : ∀ c, P (f c)) (h : k ∈ ks) :
    P (chs.each ks f k) := by
  induction ks generalizing chs with
  | nil => cases h
  | cons x ks ih =>
    rw [each, List.foldl_cons, ← each]
    by_cases hk : k ∈ ks
    · exact ih hk
    · obtain rfl := (List.mem_cons.mp h).resolve_right hk
      rw [each_of_not_mem hk, modify_apply, if_pos rfl]
      exact hP _

/-- What every call keeps. -/
theorem each_induction {ks : List κ} {P : BandwidthChannel → Prop} (hP : ∀ c, P c → P (f c)) (h : P (chs k)) :
    P (chs.each ks f k) := by
  induction ks generalizing chs with
  | nil => exact h
  | cons x ks ih =>
    rw [each, List.foldl_cons, ← each]
    refine ih ?_
    rw [modify_apply]
    split_ifs
    · exact hP _ h
    · exact h

end Channels

namespace BandwidthChannel

variable {c c' : BandwidthChannel}

/-- Only the quota has changed. -/
structure SameRound (c c' : BandwidthChannel) : Prop where
  tmp : c'.tmp = c.tmp
  distributeQuota : c'.distributeQuota = c.distributeQuota
  limit : c'.limit = c.limit

theorem SameRound.refl (c : BandwidthChannel) : SameRound c c := ⟨rfl, rfl, rfl⟩

theorem useQuota_same (c : BandwidthChannel) (amount : ℕ) : SameRound c (c.useQuota amount) := by
  rw [useQuota]
  split_ifs <;> exact ⟨rfl, rfl, rfl⟩

theorem quota_useQuota (amount : ℕ) :
    (c.useQuota amount).quota = c.quota - if c.limit = 0 then 0 else (amount : ℤ) := by
  rw [useQuota]
  split_ifs
  · exact (Int.sub_zero _).symm
  · rfl

theorem quota_updateQuota (ms : ℕ) (h : 0 ≤ c.quota) : 0 ≤ (c.updateQuota ms).quota := by
  rw [updateQuota]
  split_ifs
  · exact h
  · dsimp only
    split_ifs
    · exact Int.natCast_nonneg _
    · exact le_min (Int.mul_nonneg (Int.natCast_nonneg _) (by decide)) (Int.natCast_nonneg _)
    · exact le_min (Int.add_nonneg h (Int.natCast_nonneg _)) (Int.natCast_nonneg _)

theorem quota_returnQuota (amount : ℕ) (h : 0 ≤ c.quota) : 0 ≤ (c.returnQuota amount).quota := by
  rw [returnQuota]
  split_ifs
  · exact h
  · exact Int.add_nonneg h (Int.natCast_nonneg _)

theorem quota_needQueueing (amount : ℕ) (h : 0 ≤ c.quota) : 0 ≤ (c.needQueueing amount).2.quota := by
  rw [needQueueing]
  split_ifs with hq
  · exact h
  · dsimp only
    omega

/-- The bytes to distribute are the quota, if there is a limit. -/
theorem distributeQuota_updateQuota (ms : ℕ) : (c.updateQuota ms).limit ≠ 0 →
    (c.updateQuota ms).distributeQuota = (max (c.updateQuota ms).quota 0).toNat := by
  rw [updateQuota]
  split_ifs with h
  · exact fun hc => absurd h hc
  · exact fun _ => rfl

end BandwidthChannel

/-! ## A round -/

namespace BwRequest

variable {r r' : BwRequest π κ} {chs chs' : Channels κ}

/-- What a request keeps for as long as it is queued. -/
def key (r : BwRequest π κ) : π × ℕ × ℕ × List κ := (r.peer, r.priority, r.requestSize, r.channel)

omit [DecidableEq κ] in
theorem share_le (ks : List κ) (quota : ℕ) : r.share chs ks quota ≤ quota := by
  induction ks generalizing quota with
  | nil => exact Nat.le_refl _
  | cons k ks ih =>
    rw [share]
    split_ifs
    · exact ih quota
    · exact (ih _).trans (Nat.min_le_right _ _)

omit [DecidableEq κ] in
/-- No channel gives more than its share. -/
theorem share_le_of_mem {ks : List κ} {k : κ} (quota : ℕ) (hk : k ∈ ks) (hl : (chs k).limit ≠ 0)
    (ht : (chs k).tmp ≠ 0) :
    r.share chs ks quota ≤ (chs k).distributeQuota * r.priority / (chs k).tmp := by
  induction ks generalizing quota with
  | nil => cases hk
  | cons x ks ih =>
    rw [share]
    rcases List.mem_cons.mp hk with rfl | hk
    · rw [if_neg (not_or.mpr ⟨hl, ht⟩)]
      exact (r.share_le ks _).trans (Nat.min_le_left _ _)
    · split_ifs
      · exact ih _ hk
      · exact ih _ hk

omit [DecidableEq κ] in
/-- What `assign_bandwidth` does to a request that got `a`. -/
structure Got (chs : Channels κ) (r : BwRequest π κ) (a : ℕ) (r' : BwRequest π κ) : Prop where
  eq : r' = { r with ttl := r.ttl - 1, assigned := r.assigned + a }
  le : a ≤ r.left
  share : ∀ k ∈ r.channel.take 5, (chs k).limit ≠ 0 → (chs k).tmp ≠ 0 →
    a ≤ (chs k).distributeQuota * r.priority / (chs k).tmp

theorem assignBandwidth_got (r : BwRequest π κ) (chs : Channels κ) :
    Got chs r (r.assignBandwidth chs).1 (r.assignBandwidth chs).2.1 := by
  rw [assignBandwidth]
  dsimp only
  split_ifs with h
  · exact ⟨by rw [h]; rfl, Nat.le_refl _, fun k _ _ _ => by rw [h]; exact Nat.zero_le _⟩
  · exact ⟨rfl, share_le _ _, fun k hk hl ht => share_le_of_mem _ hk hl ht⟩

/-- How often a channel is charged for a request. -/
def charges (r : BwRequest π κ) (k : κ) : ℕ := (r.channel.take 5).count k

theorem each_useQuota (ks : List κ) (a : ℕ) (chs : Channels κ) (k : κ) :
    (chs k).SameRound (chs.each ks (·.useQuota a) k) ∧ (chs.each ks (·.useQuota a) k).quota =
      (chs k).quota - if (chs k).limit = 0 then 0 else ((ks.count k * a : ℕ) : ℤ) := by
  induction ks generalizing chs with
  | nil =>
    refine ⟨.refl _, ?_⟩
    rw [List.count_nil, Nat.zero_mul]
    split_ifs <;> exact (Int.sub_zero _).symm
  | cons x ks ih =>
    obtain ⟨h₁, h₂⟩ := ih (chs.modify x (·.useQuota a))
    rw [Channels.modify_apply] at h₁ h₂
    rw [Channels.each, List.foldl_cons, ← Channels.each]
    by_cases hx : k = x
    · subst hx
      rw [if_pos rfl] at h₁ h₂
      have hu := BandwidthChannel.useQuota_same (chs k) a
      refine ⟨⟨h₁.tmp.trans hu.tmp, h₁.distributeQuota.trans hu.distributeQuota, h₁.limit.trans hu.limit⟩, ?_⟩
      rw [h₂, hu.limit, BandwidthChannel.quota_useQuota, List.count_cons_self]
      split_ifs
      · exact Int.sub_zero _
      · push_cast
        ring
    · rw [if_neg hx] at h₁ h₂
      refine ⟨h₁, ?_⟩
      rw [h₂, List.count_cons_of_ne (Ne.symm hx)]

theorem assignBandwidth_channels (r : BwRequest π κ) (chs : Channels κ) (k : κ) :
    (chs k).SameRound ((r.assignBandwidth chs).2.2 k) ∧ ((r.assignBandwidth chs).2.2 k).quota =
      (chs k).quota - if (chs k).limit = 0 then 0 else ((r.charges k * (r.assignBandwidth chs).1 : ℕ) : ℤ) := by
  rw [assignBandwidth]
  dsimp only
  split_ifs with h hl hl
  · exact ⟨.refl _, (Int.sub_zero _).symm⟩
  · refine ⟨.refl _, ?_⟩
    rw [h, Nat.mul_zero]
    exact (Int.sub_zero _).symm
  · have := each_useQuota (r.channel.take 5)
      (({ r with ttl := r.ttl - 1 } : BwRequest π κ).share chs (r.channel.take 5) r.left) chs k
    rwa [if_pos hl] at this
  · have := each_useQuota (r.channel.take 5)
      (({ r with ttl := r.ttl - 1 } : BwRequest π κ).share chs (r.channel.take 5) r.left) chs k
    rwa [if_neg hl] at this

end BwRequest

namespace BandwidthManager

open BwRequest

variable {m : BandwidthManager π κ} {chs : Channels κ}

/-- In a round every request gets its share, by the channels as they were before it, and the channels
are charged with what their requests got. -/
theorem distribute_spec (rs : List (BwRequest π κ)) (chs : Channels κ) :
    List.Forall₂ (fun r a => Got chs r a.1 a.2) rs (distribute rs chs).1 ∧
      ∀ k, (chs k).SameRound ((distribute rs chs).2 k) ∧ ((distribute rs chs).2 k).quota =
        (chs k).quota - if (chs k).limit = 0 then 0
          else ((((distribute rs chs).1.map fun a => a.2.charges k * a.1).sum : ℕ) : ℤ) := by
  induction rs generalizing chs with
  | nil =>
    refine ⟨.nil, fun k => ⟨.refl _, ?_⟩⟩
    split_ifs <;> exact (Int.sub_zero _).symm
  | cons r rs ih =>
    obtain ⟨h₁, h₂⟩ := ih (r.assignBandwidth chs).2.2
    have hch := r.assignBandwidth_channels chs
    have hgot := r.assignBandwidth_got chs
    rw [distribute]
    refine ⟨.cons hgot (h₁.imp fun r' a hg => ?_), fun k => ?_⟩
    · refine ⟨hg.eq, hg.le, fun k hk hl ht => ?_⟩
      have hs := (hch k).1
      have := hg.share k hk (by rwa [hs.limit]) (by rwa [hs.tmp])
      rwa [hs.distributeQuota, hs.tmp] at this
    · obtain ⟨g₁, g₂⟩ := hch k
      obtain ⟨g₃, g₄⟩ := h₂ k
      refine ⟨⟨g₃.tmp.trans g₁.tmp, g₃.distributeQuota.trans g₁.distributeQuota, g₃.limit.trans g₁.limit⟩, ?_⟩
      have hcharges : (r.assignBandwidth chs).2.1.charges k = r.charges k := by
        rw [hgot.eq]
        rfl
      dsimp only
      rw [g₄, g₁.limit, g₂, List.map_cons, List.sum_cons, hcharges]
      split_ifs
      · exact Int.sub_zero _
      · push_cast
        ring

/-- The priorities of the requests queued for a channel. -/
def weight (rs : List (BwRequest π κ)) (k : κ) : ℕ := (rs.map fun r => r.channel.count k * r.priority).sum

/-- The inner loop of `weigh`, for the channels of one request. -/
theorem weigh_request (prio : ℕ) (ks l : List κ) (chs : Channels κ) (k : κ) :
    let w := ks.foldl (fun s k => (if (s.2 k).tmp = 0 then s.1 ++ [k] else s.1,
      s.2.modify k fun c => { c with tmp := c.tmp + prio })) (l, chs)
    w.2 k = { chs k with tmp := (chs k).tmp + ks.count k * prio } ∧
      ((0 < (chs k).tmp → k ∈ l) → 0 < (w.2 k).tmp → k ∈ w.1) := by
  induction ks generalizing l chs with
  | nil => exact ⟨by rw [List.foldl_nil, List.count_nil, Nat.zero_mul, Nat.add_zero], fun h => h⟩
  | cons x ks ih =>
    dsimp only
    rw [List.foldl_cons]
    obtain ⟨h₁, h₂⟩ := ih (if (chs x).tmp = 0 then l ++ [x] else l)
      (chs.modify x fun c => { c with tmp := c.tmp + prio })
    refine ⟨?_, fun hl => h₂ fun ht => ?_⟩
    · rw [h₁, Channels.modify_apply]
      by_cases hx : k = x
      · subst hx
        rw [if_pos rfl, List.count_cons_self, Nat.add_mul, Nat.one_mul, Nat.add_assoc, Nat.add_comm prio]
      · rw [if_neg hx, List.count_cons_of_ne (Ne.symm hx)]
    · rw [Channels.modify_apply] at ht
      by_cases hx : k = x
      · subst hx
        split_ifs with h0
        · exact List.mem_append_right l (List.mem_singleton_self k)
        · exact hl (Nat.pos_of_ne_zero h0)
      · rw [if_neg hx] at ht
        split_ifs
        · exact List.mem_append_left [x] (hl ht)
        · exact hl ht

/-- `weigh` adds the weights up, and lists every channel that gets one. -/
theorem weigh_spec (rs : List (BwRequest π κ)) (chs : Channels κ) (k : κ) :
    (weigh rs chs).2 k = { chs k with tmp := (chs k).tmp + weight rs k } ∧
      ((chs k).tmp = 0 → 0 < weight rs k → k ∈ (weigh rs chs).1) := by
  have hfold : ∀ (l : List κ) (chs : Channels κ),
      let w := rs.foldl (fun s r => r.channel.foldl (fun s k => (if (s.2 k).tmp = 0 then s.1 ++ [k] else s.1,
        s.2.modify k fun c => { c with tmp := c.tmp + r.priority })) s) (l, chs)
      w.2 k = { chs k with tmp := (chs k).tmp + weight rs k } ∧
        ((0 < (chs k).tmp → k ∈ l) → 0 < (w.2 k).tmp → k ∈ w.1) := by
    induction rs with
    | nil => exact fun l chs => ⟨rfl, fun h => h⟩
    | cons r rs ih =>
      intro l chs
      dsimp only
      obtain ⟨h₁, h₂⟩ := weigh_request r.priority r.channel l chs k
      rw [List.foldl_cons]
      obtain ⟨h₃, h₄⟩ := ih _ _
      refine ⟨?_, fun hl => h₄ (h₂ hl)⟩
      rw [h₃, h₁, weight, weight, List.map_cons, List.sum_cons, Nat.add_assoc]
  obtain ⟨h₁, h₂⟩ := hfold [] chs
  refine ⟨h₁, fun h0 hw => h₂ (fun hc => ?_) ?_⟩
  · omega
  · rw [h₁]
    exact Nat.add_pos_right _ hw

/-- The channels of the requests that stay are ready for a round. -/
theorem prepare_tmp (disconnecting : π → Bool) (rs : List (BwRequest π κ)) (chs : Channels κ) {k : κ}
    (h : (chs k).tmp = 0 ∨ ∃ r ∈ rs, disconnecting r.peer = false ∧ k ∈ r.channel) :
    (prepare disconnecting rs chs k).tmp = 0 := by
  induction rs generalizing chs with
  | nil =>
    refine h.resolve_right ?_
    rintro ⟨r, hr, -⟩
    cases hr
  | cons r rs ih =>
    rw [prepare, List.foldl_cons, ← prepare]
    refine ih _ ?_
    -- a channel that is ready stays so
    have hkeep : (chs k).tmp = 0 → ((if disconnecting r.peer then chs.each r.channel (·.returnQuota r.assigned)
        else chs.each r.channel ({ · with tmp := 0 })) k).tmp = 0 := by
      intro h0
      split_ifs
      · refine Channels.each_induction (P := fun c => c.tmp = 0) (fun c hc => ?_) h0
        rw [BandwidthChannel.returnQuota]
        split_ifs <;> exact hc
      · exact Channels.each_induction (P := fun c => c.tmp = 0) (fun _ _ => rfl) h0
    rcases h with h0 | ⟨r', hr', hd, hk⟩
    · exact .inl (hkeep h0)
    · rcases List.mem_cons.mp hr' with rfl | hr'
      · rw [if_neg (by rw [hd]; exact Bool.false_ne_true)]
        exact .inl (Channels.each_of_mem (P := fun c => c.tmp = 0) (fun _ => rfl) hk)
      · exact .inr ⟨r', hr', hd, hk⟩

/-- What holds of every channel throughout `prepare`. -/
theorem prepare_induction {P : BandwidthChannel → Prop} (hreturn : ∀ c amount, P c → P (c.returnQuota amount))
    (htmp : ∀ c, P c → P { c with tmp := 0 }) (disconnecting : π → Bool) (rs : List (BwRequest π κ))
    (chs : Channels κ) {k : κ} (h : P (chs k)) : P (prepare disconnecting rs chs k) := by
  induction rs generalizing chs with
  | nil => exact h
  | cons r rs ih =>
    rw [prepare, List.foldl_cons, ← prepare]
    refine ih _ ?_
    split_ifs
    · exact Channels.each_induction (fun c hc => hreturn c _ hc) h
    · exact Channels.each_induction htmp h

/-- The requests in the queue are valid, and their bytes are counted. -/
structure Inv (m : BandwidthManager π κ) : Prop where
  bytes : m.queuedBytes = ((m.queue.map (·.left)).sum : ℕ)
  unfilled : ∀ r ∈ m.queue, r.assigned < r.requestSize
  priority : ∀ r ∈ m.queue, 0 < r.priority
  aborted : m.abort = true → m.queue = []

omit [DecidableEq κ] in
theorem Inv.of_nil (hq : m.queue = []) (hb : m.queuedBytes = 0) : m.Inv := by
  have hnone : ∀ r ∈ m.queue, False := by
    rw [hq]
    exact fun r hr => List.not_mem_nil hr
  refine ⟨?_, fun r hr => (hnone r hr).elim, fun r hr => (hnone r hr).elim, fun _ => hq⟩
  rw [hq, hb]
  rfl

section Round
variable {ms : ℕ} {disconnecting : π → Bool} {k : κ}

/-- A channel of a request that stays, once it is refilled. -/
theorem refilled_spec (h : m.Inv) (hk : ∃ r ∈ m.staying disconnecting, k ∈ r.channel) :
    (m.refilled ms disconnecting k).tmp = weight (m.staying disconnecting) k ∧
      0 < (m.refilled ms disconnecting k).tmp ∧
      ((m.refilled ms disconnecting k).limit ≠ 0 → (m.refilled ms disconnecting k).distributeQuota =
        (max (m.refilled ms disconnecting k).quota 0).toNat) := by
  obtain ⟨r, hr, hkr⟩ := hk
  obtain ⟨hrq, hd⟩ := List.mem_filter.mp hr
  rw [Bool.not_eq_true'] at hd
  have h0 := prepare_tmp disconnecting m.queue m.channels (.inr ⟨r, hrq, hd, hkr⟩)
  obtain ⟨h₁, h₂⟩ := weigh_spec (m.staying disconnecting) (prepare disconnecting m.queue m.channels) k
  rw [h0, Nat.zero_add] at h₁
  have hpos : 0 < weight (m.staying disconnecting) k := by
    have hmem := List.mem_map_of_mem (f := fun r => r.channel.count k * r.priority) hr
    exact (Nat.mul_pos (List.count_pos_iff.mpr hkr) (h.priority r hrq)).trans_le (List.le_sum_of_mem hmem)
  have htmp : (m.refilled ms disconnecting k).tmp = weight (m.staying disconnecting) k := by
    refine Channels.each_induction (P := fun c => c.tmp = weight (m.staying disconnecting) k) (fun c hc => ?_) ?_
    · rw [BandwidthChannel.updateQuota]
      split_ifs <;> exact hc
    · rw [h₁]
  refine ⟨htmp, htmp ▸ hpos, ?_⟩
  exact Channels.each_of_mem (P := fun c => c.limit ≠ 0 → c.distributeQuota = (max c.quota 0).toNat)
    (fun c => c.distributeQuota_updateQuota _) (h₂ h0 hpos)

theorem refilled_quota (h : 0 ≤ (m.channels k).quota) : 0 ≤ (m.refilled ms disconnecting k).quota := by
  refine Channels.each_induction (P := fun c => 0 ≤ c.quota) (fun c hc => c.quota_updateQuota _ hc) ?_
  rw [(weigh_spec _ _ k).1]
  exact prepare_induction (P := fun c => 0 ≤ c.quota) (fun c _ hc => c.quota_returnQuota _ hc) (fun _ hc => hc)
    _ _ _ h

/-- The requests of a round, before and after it. -/
theorem round_got (ms : ℕ) (disconnecting : π → Bool) :
    List.Forall₂ (fun r a => Got (m.refilled ms disconnecting) r a.1 a.2) (m.staying disconnecting)
      (m.round ms disconnecting).1 :=
  (distribute_spec _ _).1

omit [DecidableEq κ] in
theorem got_map {β : Type} {f : BwRequest π κ → β} (hf : ∀ r n t, f { r with ttl := t, assigned := n } = f r)
    {rs : List (BwRequest π κ)} {out : List (ℕ × BwRequest π κ)}
    (h : List.Forall₂ (fun r a => Got chs r a.1 a.2) rs out) : out.map (fun a => f a.2) = rs.map f := by
  induction h with
  | nil => rfl
  | cons hg _ ih => rw [List.map_cons, List.map_cons, ih, hg.eq, hf]

omit [DecidableEq κ] in
theorem got_of_mem {rs : List (BwRequest π κ)} {out : List (ℕ × BwRequest π κ)}
    (h : List.Forall₂ (fun r a => Got chs r a.1 a.2) rs out) {a : ℕ × BwRequest π κ} (ha : a ∈ out) :
    ∃ r ∈ rs, Got chs r a.1 a.2 := by
  induction h with
  | nil => cases ha
  | cons hg _ ih =>
    rcases List.mem_cons.mp ha with rfl | ha
    · exact ⟨_, List.mem_cons_self, hg⟩
    · obtain ⟨r, hr, hg⟩ := ih ha
      exact ⟨r, List.mem_cons_of_mem _ hr, hg⟩

/-- No more is taken from a channel in a round than it has to distribute. `f` is what each request takes,
and takes nothing from a channel that is not among its first five. -/
theorem taken_le (h : m.Inv) {l : List (ℕ × BwRequest π κ)} (hsub : l.Sublist (m.round ms disconnecting).1)
    (hl : (m.refilled ms disconnecting k).limit ≠ 0) {f : ℕ × BwRequest π κ → ℕ}
    (hf : ∀ a ∈ l, f a ≤ a.2.channel.count k * a.1) (hk : ∀ a ∈ l, 0 < f a → k ∈ a.2.channel.take 5) :
    (l.map f).sum ≤ (max (m.refilled ms disconnecting k).quota 0).toNat := by
  by_cases hex : ∃ r ∈ m.staying disconnecting, k ∈ r.channel
  · obtain ⟨ht, hpos, hd⟩ := @refilled_spec _ _ _ m ms disconnecting k h hex
    rw [← hd hl]
    refine sum_shares_le (t := (m.refilled ms disconnecting k).tmp)
      (w := fun a => a.2.channel.count k * a.2.priority) (fun a ha => ?_) ?_
    · rcases Nat.eq_zero_or_pos (f a) with h0 | h0
      · rw [h0]
        exact Nat.zero_le _
      · obtain ⟨r, -, hg⟩ := got_of_mem (round_got ms disconnecting) (hsub.subset ha)
        have hka := hk a ha h0
        rw [hg.eq] at hka
        have hshare := hg.share k hka hl hpos.ne'
        have hprio : a.2.priority = r.priority := by rw [hg.eq]
        have hmul := Nat.mul_le_mul_left (a.2.channel.count k) hshare
        refine (hf a ha).trans (hmul.trans ((Nat.mul_div_le_mul_div_assoc _ _ _).trans ?_))
        rw [hprio, Nat.mul_left_comm]
    · have hmap := got_map (f := fun r => r.channel.count k * r.priority) (fun _ _ _ => rfl)
        (round_got (m := m) ms disconnecting)
      rw [ht, weight, ← hmap]
      exact (hsub.map _).sum_le_sum (fun _ _ => Nat.zero_le _)
  · -- no request waits for the channel
    have hzero : ∀ a ∈ l, f a = 0 := by
      intro a ha
      obtain ⟨r, hr, hg⟩ := got_of_mem (round_got ms disconnecting) (hsub.subset ha)
      refine Nat.eq_zero_of_not_pos fun h0 => hex ⟨r, hr, ?_⟩
      have := List.mem_of_mem_take (hk a ha h0)
      rwa [hg.eq] at this
    rw [List.sum_eq_zero fun x hx => ?_]
    · exact Nat.zero_le _
    · obtain ⟨a, ha, rfl⟩ := List.mem_map.mp hx
      exact hzero a ha

/-- The quota handed out for a channel. -/
theorem handedOut_le (h : m.Inv) (hl : (m.refilled ms disconnecting k).limit ≠ 0)
    (hfive : ∀ r ∈ m.staying disconnecting, k ∈ r.channel → k ∈ r.channel.take 5) :
    (m.handedOut ms disconnecting k : ℤ) ≤ max (m.refilled ms disconnecting k).quota 0 := by
  have htaken : m.handedOut ms disconnecting k ≤ (max (m.refilled ms disconnecting k).quota 0).toNat := by
    refine taken_le h List.filter_sublist hl (fun a ha => ?_) fun a ha _ => ?_
    · have hk := of_decide_eq_true (List.mem_filter.mp ha).2
      exact Nat.le_mul_of_pos_left a.1 (List.count_pos_iff.mpr hk)
    · obtain ⟨hmem, hk⟩ := List.mem_filter.mp ha
      obtain ⟨r, hr, hg⟩ := got_of_mem (round_got ms disconnecting) hmem
      have hk' := of_decide_eq_true hk
      rw [hg.eq] at hk' ⊢
      exact hfive r hr hk'
  omega

theorem round_quota (h : m.Inv) (hq : 0 ≤ (m.channels k).quota) :
    0 ≤ ((m.round ms disconnecting).2 k).quota := by
  have h₀ : 0 ≤ (m.refilled ms disconnecting k).quota := refilled_quota hq
  obtain ⟨-, hround⟩ := (distribute_spec (m.staying disconnecting) (m.refilled ms disconnecting)).2 k
  rw [round, hround]
  split_ifs with hl
  · rwa [Int.sub_zero]
  · have := taken_le (k := k) (f := fun a => a.2.charges k * a.1) h (List.Sublist.refl _) hl (fun a _ => ?_)
      fun a _ h0 => ?_
    · rw [round] at this
      omega
    · exact Nat.mul_le_mul_right a.1 ((List.take_sublist 5 a.2.channel).count_le k)
    · exact List.count_pos_iff.mp (Nat.pos_of_mul_pos_right h0)

end Round

/-! ## The calls -/

omit [DecidableEq κ] in
theorem left_eq_of_got {rs : List (BwRequest π κ)} {out : List (ℕ × BwRequest π κ)}
    (h : List.Forall₂ (fun r a => Got chs r a.1 a.2) rs out) :
    (rs.map (·.left)).sum = (out.map fun a => a.1 + a.2.left).sum := by
  induction h with
  | nil => rfl
  | cons hg _ ih =>
    have hle := hg.le
    rw [List.map_cons, List.map_cons, List.sum_cons, List.sum_cons, ih, hg.eq]
    rw [left] at hle ⊢
    rw [left]
    dsimp only
    omega

/-- The requests of a list that have a property, and those that do not. -/
theorem sum_filter_add {ι : Type} (l : List ι) (p : ι → Bool) (f : ι → ℕ) :
    (l.map f).sum = ((l.filter p).map f).sum + ((l.filter fun i => !p i).map f).sum := by
  rw [← List.sum_append, ← List.map_append]
  exact ((List.filter_append_perm p l).map f).sum_eq.symm

omit [DecidableEq κ] in
theorem sum_left_split (out : List (ℕ × BwRequest π κ)) : (out.map fun a => a.1 + a.2.left).sum =
    (out.map fun a => a.1 + if a.2.done then a.2.left else 0).sum +
      (((out.map (·.2)).filter (¬ ·.done)).map (·.left)).sum := by
  induction out with
  | nil => rfl
  | cons a out ih =>
    simp only [List.map_cons, List.sum_cons, List.filter_cons, ih]
    by_cases hd : a.2.done
    · simp only [hd, not_true, decide_false, if_true, Bool.false_eq_true, if_false]
      omega
    · simp only [hd, not_false_eq_true, decide_true, if_true, if_false, List.map_cons, List.sum_cons]
      omega

theorem Inv.updateQuotas (h : m.Inv) (ms : ℕ) (disconnecting : π → Bool) :
    (m.updateQuotas ms disconnecting).2.Inv := by
  rw [BandwidthManager.updateQuotas]
  split_ifs with ha hq
  · exact h
  · exact h
  dsimp only
  have hgot := round_got (m := m) ms disconnecting
  set out := (m.round ms disconnecting).1
  have hmem : ∀ r' ∈ (out.map (·.2)).filter (¬ ·.done), r'.assigned < r'.requestSize ∧ 0 < r'.priority := by
    intro r' hr'
    obtain ⟨hmap, hdone⟩ := List.mem_filter.mp hr'
    obtain ⟨a, haout, rfl⟩ := List.mem_map.mp hmap
    obtain ⟨r, hr, hg⟩ := got_of_mem hgot haout
    have hrq := (List.mem_filter.mp hr).1
    have hlt := h.unfilled r hrq
    have hle := hg.le
    rw [left] at hle
    have hnot : ¬ a.2.done := of_decide_eq_true hdone
    rw [done, not_or] at hnot
    rw [hg.eq] at hnot ⊢
    exact ⟨by dsimp only at hnot ⊢; omega, h.priority r hrq⟩
  refine ⟨?_, fun r hr => (hmem r hr).1, fun r hr => (hmem r hr).2, fun hc => absurd hc ha⟩
  have hqueue := sum_filter_add m.queue (fun r => disconnecting r.peer) (·.left)
  have hstay : ((m.staying disconnecting).map (·.left)).sum = _ := left_eq_of_got hgot
  have hsplit := sum_left_split out
  have hbytes := h.bytes
  rw [staying] at hstay
  rw [leaving]
  dsimp only
  omega

theorem Inv.requestBandwidth (h : m.Inv) (peer : π) {blk priority : ℕ} (hblk : 0 < blk) (hp : 0 < priority)
    (chan : List κ) : (m.requestBandwidth peer blk priority chan).2.Inv := by
  rw [BandwidthManager.requestBandwidth]
  split_ifs with ha
  · exact h
  · exact h
  · dsimp only
    split_ifs
    · exact ⟨h.bytes, h.unfilled, h.priority, h.aborted⟩
    · have hnew : ∀ r ∈ m.queue ++ [(⟨peer, priority, 0, blk, 20, (queueFor blk chan m.channels).1⟩ :
          BwRequest π κ)], r.assigned < r.requestSize ∧ 0 < r.priority := by
        intro r hr
        rcases List.mem_append.mp hr with hr | hr
        · exact ⟨h.unfilled r hr, h.priority r hr⟩
        · obtain rfl := List.mem_singleton.mp hr
          exact ⟨hblk, hp⟩
      refine ⟨?_, fun r hr => (hnew r hr).1, fun r hr => (hnew r hr).2, fun hc => absurd hc ha⟩
      dsimp only
      rw [h.bytes, List.map_append, List.sum_append, List.map_singleton, List.sum_singleton, left]
      push_cast
      rw [Nat.sub_zero]

theorem queueFor_quota (amount : ℕ) (ks : List κ) (chs : Channels κ) {k : κ} (h : 0 ≤ (chs k).quota) :
    0 ≤ ((queueFor amount ks chs).2 k).quota := by
  induction ks generalizing chs with
  | nil => exact h
  | cons x ks ih =>
    rw [queueFor]
    refine ih _ ?_
    rw [Function.update_apply]
    split_ifs with hx
    · rw [hx] at h
      exact BandwidthChannel.quota_needQueueing amount h
    · exact h

theorem requestBandwidth_quota (peer : π) (blk priority : ℕ) (chan : List κ) {k : κ}
    (h : 0 ≤ (m.channels k).quota) : 0 ≤ ((m.requestBandwidth peer blk priority chan).2.channels k).quota := by
  rw [requestBandwidth]
  split_ifs
  · exact h
  · exact h
  · dsimp only
    split_ifs <;> exact queueFor_quota blk chan m.channels h

/-- Everything a request had before an update, is there after it. -/
theorem updateQuotas_perm (m : BandwidthManager π κ) (ms : ℕ) (disconnecting : π → Bool) :
    (m.queue.map key).Perm (((m.updateQuotas ms disconnecting).1 ++
      (m.updateQuotas ms disconnecting).2.queue).map key) := by
  rw [updateQuotas]
  split_ifs
  · exact .refl _
  · exact .refl _
  dsimp only
  have hmap : ((m.round ms disconnecting).1.map (·.2)).map key = (m.staying disconnecting).map key := by
    rw [List.map_map]
    exact got_map (f := key) (fun _ _ _ => rfl) (round_got ms disconnecting)
  set after := (m.round ms disconnecting).1.map (·.2)
  have hqueue : (m.queue.map key).Perm ((m.leaving disconnecting).map key ++ (m.staying disconnecting).map key) := by
    rw [← List.map_append]
    exact ((List.filter_append_perm (fun r => disconnecting r.peer) m.queue).map key).symm
  have hafter : (after.map key).Perm ((after.filter (·.done)).map key ++ (after.filter (¬ ·.done)).map key) := by
    rw [← List.map_append]
    refine (List.Perm.map key ?_).symm
    simpa using List.filter_append_perm (fun r => decide r.done) after
  have hdrop : ((m.leaving disconnecting).map drop).map key = (m.leaving disconnecting).map key := by
    rw [List.map_map]
    rfl
  rw [List.map_append]
  refine hqueue.trans ?_
  rw [← hmap]
  refine (hafter.append_left _).trans ?_
  rw [← List.append_assoc, ← hdrop, ← List.map_append]
  exact ((List.reverse_perm _).symm.map key).append_right _

/-- No answer gives more than was asked for. -/
theorem updateQuotas_assigned (h : m.Inv) {ms : ℕ} {disconnecting : π → Bool} {r : BwRequest π κ}
    (hr : r ∈ (m.updateQuotas ms disconnecting).1) : r.assigned ≤ r.requestSize := by
  rw [updateQuotas] at hr
  split_ifs at hr
  · cases hr
  · cases hr
  rcases List.mem_append.mp (List.mem_reverse.mp hr) with hr | hr
  · obtain ⟨r', -, rfl⟩ := List.mem_map.mp hr
    exact Nat.zero_le _
  · obtain ⟨a, ha, rfl⟩ := List.mem_map.mp (List.mem_filter.mp hr).1
    obtain ⟨r', hr', hg⟩ := got_of_mem (round_got ms disconnecting) ha
    have hlt := h.unfilled r' (List.mem_filter.mp hr').1
    have hle := hg.le
    rw [left] at hle
    rw [hg.eq]
    dsimp only
    omega

/-- A request stays in the queue until its peer disconnects, it has got everything, or it has waited for
twenty rounds and got something. -/
theorem updateQuotas_stays (h : m.Inv) {ms : ℕ} {disconnecting : π → Bool} {r : BwRequest π κ}
    (hr : r ∈ (m.updateQuotas ms disconnecting).2.queue) : disconnecting r.peer = false ∧ ¬ r.done := by
  rw [updateQuotas] at hr
  split_ifs at hr with ha hq
  · rw [h.aborted ha] at hr
    cases hr
  · rw [hq] at hr
    cases hr
  obtain ⟨hmap, hdone⟩ := List.mem_filter.mp hr
  obtain ⟨a, haout, rfl⟩ := List.mem_map.mp hmap
  obtain ⟨r', hr', hg⟩ := got_of_mem (round_got ms disconnecting) haout
  refine ⟨?_, of_decide_eq_true hdone⟩
  have hd := (List.mem_filter.mp hr').2
  rw [hg.eq]
  exact Bool.not_eq_true' _ |>.mp hd

theorem updateQuotas_quota (h : m.Inv) {ms : ℕ} {disconnecting : π → Bool} {k : κ}
    (hq : 0 ≤ (m.channels k).quota) : 0 ≤ ((m.updateQuotas ms disconnecting).2.channels k).quota := by
  rw [updateQuotas]
  split_ifs
  · exact hq
  · exact hq
  · exact round_quota h hq

end BandwidthManager

/-! ## Runs -/

open BandwidthManager BwRequest

/-- A run of the manager, from no requests and the channels `chs`: the requests that were queued, and those
that were answered. Limits may change, and peers may disconnect, at any time. -/
inductive BandwidthRun (chs : Channels κ) :
    BandwidthManager π κ → List (BwRequest π κ) → List (BwRequest π κ) → Prop
  | start : BandwidthRun chs (.empty chs) [] []
  | requestBandwidth {m queued answered} (h : BandwidthRun chs m queued answered) (peer : π) {blk priority : ℕ}
      (hblk : 0 < blk) (hpriority : 0 < priority) (chan : List κ) :
      BandwidthRun chs (m.requestBandwidth peer blk priority chan).2
        (queued ++ (m.requestBandwidth peer blk priority chan).2.queue.drop m.queue.length) answered
  | updateQuotas {m queued answered} (h : BandwidthRun chs m queued answered) (ms : ℕ) (disconnecting : π → Bool) :
      BandwidthRun chs (m.updateQuotas ms disconnecting).2 queued
        (answered ++ (m.updateQuotas ms disconnecting).1)
  | throttle {m queued answered} (h : BandwidthRun chs m queued answered) (k : κ) (limit : ℕ) :
      BandwidthRun chs { m with channels := m.channels.modify k (·.throttle limit) } queued answered
  | close {m queued answered} (h : BandwidthRun chs m queued answered) :
      BandwidthRun chs m.close.2 queued (answered ++ m.close.1)

namespace BandwidthRun

variable {chs : Channels κ} {m : BandwidthManager π κ} {queued answered : List (BwRequest π κ)}

theorem inv (h : BandwidthRun chs m queued answered) : m.Inv := by
  induction h with
  | start => exact .of_nil rfl rfl
  | requestBandwidth _ peer hblk hpriority chan ih => exact ih.requestBandwidth peer hblk hpriority chan
  | updateQuotas _ ms disconnecting ih => exact ih.updateQuotas ms disconnecting
  | throttle _ k limit ih => exact ⟨ih.bytes, ih.unfilled, ih.priority, ih.aborted⟩
  | close _ _ => exact .of_nil rfl rfl

/-- Every request that was queued has been answered once or is still in the queue. -/
theorem perm (h : BandwidthRun chs m queued answered) :
    (queued.map key).Perm ((answered ++ m.queue).map key) := by
  induction h with
  | start => exact .refl _
  | @requestBandwidth m queued answered _ peer blk priority _ _ chan ih =>
    have hqueue : m.queue ++ (m.requestBandwidth peer blk priority chan).2.queue.drop m.queue.length =
        (m.requestBandwidth peer blk priority chan).2.queue := by
      have hprefix : m.queue <+: (m.requestBandwidth peer blk priority chan).2.queue := by
        rw [BandwidthManager.requestBandwidth]
        split_ifs
        · exact List.prefix_refl _
        · exact List.prefix_refl _
        · dsimp only
          split_ifs
          · exact List.prefix_refl _
          · exact List.prefix_append _ _
      obtain ⟨added, hadded⟩ := hprefix
      rw [← hadded, List.drop_left]
    have hadd := ih.append_right
      (((m.requestBandwidth peer blk priority chan).2.queue.drop m.queue.length).map key)
    rw [← List.map_append, ← List.map_append, List.append_assoc, hqueue] at hadd
    exact hadd
  | @updateQuotas m queued answered _ ms disconnecting ih =>
    refine ih.trans ?_
    rw [List.append_assoc, List.map_append, List.map_append]
    exact (m.updateQuotas_perm ms disconnecting).append_left _
  | throttle _ _ _ ih => exact ih
  | @close m queued answered _ ih =>
    refine ih.trans ?_
    rw [BandwidthManager.close, List.append_nil, List.map_append, List.map_append]
    exact ((List.reverse_perm m.queue).symm.map key).append_left _

theorem assigned_le (h : BandwidthRun chs m queued answered) : ∀ r ∈ answered, r.assigned ≤ r.requestSize := by
  induction h with
  | start => exact fun r hr => by cases hr
  | requestBandwidth _ _ _ _ _ ih => exact ih
  | updateQuotas h ms disconnecting ih =>
    intro r hr
    rcases List.mem_append.mp hr with hr | hr
    · exact ih r hr
    · exact updateQuotas_assigned h.inv hr
  | throttle _ _ _ ih => exact ih
  | close h ih =>
    intro r hr
    rcases List.mem_append.mp hr with hr | hr
    · exact ih r hr
    · exact (h.inv.unfilled r (List.mem_reverse.mp hr)).le

theorem quota_nonneg (h : BandwidthRun chs m queued answered) {k : κ} (hk : 0 ≤ (chs k).quota) :
    0 ≤ (m.channels k).quota := by
  induction h with
  | start => exact hk
  | requestBandwidth _ peer _ _ chan ih => exact requestBandwidth_quota peer _ _ chan ih
  | updateQuotas h _ _ ih => exact updateQuotas_quota h.inv ih
  | throttle _ k' limit ih =>
    dsimp only
    rw [Channels.modify_apply]
    split_ifs <;> exact ih
  | close _ ih => exact ih

end BandwidthRun

/-- In every run the queued bytes are what the requests in the queue wait for, every request that was queued
has been answered once, with at most what it asked for, or is still in the queue, and no quota gets
negative. A round keeps only requests that are not to be answered yet, and hands out no more of a channel's
quota than there is, as long as the channel is among the first five of every request it is queued for. -/
theorem bandwidth_conserved {chs : Channels κ} {m : BandwidthManager π κ} {queued answered : List (BwRequest π κ)}
    (h : BandwidthRun chs m queued answered) :
    m.queuedBytes = (m.queue.map fun r => (r.requestSize : ℤ) - r.assigned).sum ∧
      (queued.map key).Perm ((answered ++ m.queue).map key) ∧
      (∀ r ∈ answered, r.assigned ≤ r.requestSize) ∧
      (∀ k, 0 ≤ (chs k).quota → 0 ≤ (m.channels k).quota) ∧
      (∀ (ms : ℕ) (disconnecting : π → Bool), ∀ r ∈ (m.updateQuotas ms disconnecting).2.queue,
        disconnecting r.peer = false ∧ ¬ r.done) ∧
      ∀ (ms : ℕ) (disconnecting : π → Bool) (k : κ), 0 < (m.refilled ms disconnecting k).limit →
        (∀ r ∈ m.queue, k ∈ r.channel → k ∈ r.channel.take 5) →
          (m.handedOut ms disconnecting k : ℤ) ≤ max (m.refilled ms disconnecting k).quota 0 := by
  have hinv := h.inv
  refine ⟨?_, h.perm, h.assigned_le, fun k hk => h.quota_nonneg hk,
    fun ms disconnecting r hr => updateQuotas_stays hinv hr, fun ms disconnecting k hl hfive => ?_⟩
  · have hleft : (m.queue.map fun r => (r.requestSize : ℤ) - r.assigned) = m.queue.map fun r => (r.left : ℤ) := by
      refine List.map_congr_left fun r hr => ?_
      have := hinv.unfilled r hr
      rw [left]
      omega
    rw [hinv.bytes, hleft, Nat.cast_list_sum, List.map_map]
    rfl
  · exact handedOut_le hinv hl.ne' fun r hr => hfive r (List.mem_filter.mp hr).1

/-- Channels with a limit of 1000000 bytes per second, but for the one of number `slow`. -/
def oneSlow (slow : ℕ) : Channels ℕ := fun k => { limit := if k = slow then 1 else 1000000 }

/-- A request for 1000 bytes that waits for two channels, the second a slow one. -/
theorem bandwidth_conserved_slow : ∃ m : BandwidthManager ℕ ℕ, ∃ queued : List (BwRequest ℕ ℕ),
    BandwidthRun (oneSlow 1) m queued [] ∧ m.queuedBytes = 1000 ∧
      (m.handedOut 1000 (fun _ => false) 1 : ℤ) ≤ max (m.refilled 1000 (fun _ => false) 1).quota 0 := by
  have hrun := (BandwidthRun.start : BandwidthRun (oneSlow 1) _ ([] : List (BwRequest ℕ ℕ)) []).requestBandwidth 7
    (by decide : 0 < 1000) (by decide : 0 < 1) [0, 1]
  refine ⟨_, _, hrun, by decide +kernel, ?_⟩
  exact (bandwidth_conserved hrun).2.2.2.2.2 1000 (fun _ => false) 1 (by decide +kernel) (by decide +kernel)

/-- The sixth channel of a request is neither asked nor charged. -/
theorem bandwidth_not_conserved : ¬ ∀ (chs : Channels ℕ) (m : BandwidthManager ℕ ℕ)
    (queued answered : List (BwRequest ℕ ℕ)), BandwidthRun chs m queued answered →
      ∀ (ms : ℕ) (disconnecting : ℕ → Bool) (k : ℕ), 0 < (m.refilled ms disconnecting k).limit →
        (m.handedOut ms disconnecting k : ℤ) ≤ max (m.refilled ms disconnecting k).quota 0 := by
  intro h
  have hrun := (BandwidthRun.start : BandwidthRun (oneSlow 5) _ ([] : List (BwRequest ℕ ℕ)) []).requestBandwidth 7
    (by decide : 0 < 1000) (by decide : 0 < 1) [0, 1, 2, 3, 4, 5]
  have := h _ _ _ _ hrun 1000 (fun _ => false) 5 (by decide +kernel)
  revert this
  decide +kernel

end LibtorrentSN
