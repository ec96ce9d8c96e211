import Mathlib.Algebra.Group.Action.Defs
import Mathlib.Algebra.Order.BigOperators.Group.List
import Mathlib.Algebra.Order.Ring.Nat
import LibtorrentSN.Tracker.EventOrder
import LibtorrentSN.Tracker.TrackerTimer

/-!
# The announce that the timer is set for

An announce at the time that the timer takes from an endpoint sends a request.
-/

namespace LibtorrentSN

namespace Tracker

namespace AnnounceEnv

variable (env : AnnounceEnv)

/-- An announce passes over the endpoints of the tier. -/
def AnnounceBlocked (state : AnnounceState) (tier : ℕ) : Prop :=
  state.done = true ∨
    (env.announceToAllTiers = true ∧ env.announceToAllTrackers = false ∧ state.sentAnnounce = true ∧
      tier ≤ state.tier ∧ state.tier ≠ 2 ^ 31 - 1) ∨
    (state.tier < tier ∧ state.sentAnnounce = true ∧ env.announceToAllTiers = false)

/-- An announce that has sent nothing yet comes to the endpoint of a tracker that stands behind these. -/
structure Reaches (socket : ℕ) (front : List AnnounceEntry) (ae : AnnounceEntry) : Prop where
  takesPart : env.TakesPart (ae.endpoint socket)
  inWay : ∀ ae' ∈ front, env.TakesPart (ae'.endpoint socket) →
    (ae'.endpoint socket).infoHash.isWorking = true → ¬ env.InWay ae'.tier ae.tier

/-- The torrent may announce to its trackers. -/
structure Announces : Prop where
  announceToTrackers : env.announceToTrackers = true
  paused : env.paused = false
  abort : env.abort = false

variable {env} {ae : AnnounceEntry} {a : AnnounceInfohash} {state : AnnounceState} {tier : ℕ}

theorem visit_of_blocked (h : env.AnnounceBlocked state ae.tier) : env.visit ae a state = (false, state) := by
  rw [visit]
  rcases h with h | h | h
  · rw [if_pos h]
  · split
    · rfl
    · rw [if_pos ⟨h.1, by simp [h.2.1], h.2.2⟩]
  · split
    · rfl
    · split
      · rfl
      · rw [if_pos ⟨h.1, h.2.1, by simp [h.2.2]⟩]

theorem visit_of_not_blocked (h : ¬ env.AnnounceBlocked state ae.tier) :
    (env.visit ae a state).1 = a.canAnnounce env.now env.isSeed ae.failLimit ∧
      (a.canAnnounce env.now env.isSeed ae.failLimit = false → (env.visit ae a state).2 =
        if a.isWorking then
          { tier := ae.tier, sentAnnounce := true, done := !env.announceToAllTrackers && !env.announceToAllTiers }
        else state) := by
  obtain ⟨hdone, h⟩ := not_or.mp h
  obtain ⟨hsame, hlower⟩ := not_or.mp h
  rw [visit, if_neg hdone, if_neg fun hand => hsame ⟨hand.1, by simpa using hand.2.1, hand.2.2⟩,
    if_neg fun hand => hlower ⟨hand.1, hand.2.1, by simpa using hand.2.2⟩]
  dsimp only
  cases hcan : a.canAnnounce env.now env.isSeed ae.failLimit with
  | false =>
    refine ⟨by simp, fun _ => ?_⟩
    cases hworking : a.isWorking with
    | false => simp
    | true => simp [eq_false_of_ne_true hdone]
  | true => simp

/-- What an endpoint that sends nothing adds to the tiers that an announce passes over. -/
theorem announceBlocked_visit (hquiet : (env.visit ae a state).1 = false) (htier : ae.tier ≠ 2 ^ 31 - 1)
    (hle : ae.tier ≤ tier) : env.AnnounceBlocked (env.visit ae a state).2 tier ↔
      env.AnnounceBlocked state tier ∨ (a.isWorking = true ∧ env.InWay ae.tier tier) := by
  by_cases h : env.AnnounceBlocked state ae.tier
  · rw [visit_of_blocked h]
    refine (or_iff_left_of_imp fun hway => ?_).symm
    rcases h with hdone | ⟨htiers, htrackers, hsent, hle', hne⟩ | ⟨hlt, hsent, htiers⟩
    · exact .inl hdone
    · rw [InWay, if_pos htiers] at hway
      exact .inr (.inl ⟨htiers, htrackers, hsent, hway.2.2 ▸ hle', hne⟩)
    · exact .inr (.inr ⟨hlt.trans_le hle, hsent, htiers⟩)
  · obtain ⟨hcan, hstate⟩ := visit_of_not_blocked (a := a) h
    rw [hstate (hcan.symm.trans hquiet)]
    cases hworking : a.isWorking with
    | false => simp
    | true =>
      have hold : env.AnnounceBlocked state tier → env.InWay ae.tier tier := by
        rintro (hd | ⟨htiers, htrackers, hs, hle', hne⟩ | ⟨hlt, hs, htiers⟩)
        · exact absurd (.inl hd) h
        · exact absurd (.inr (.inl ⟨htiers, htrackers, hs, hle.trans hle', hne⟩)) h
        · rw [InWay, if_neg (by simp [htiers])]
          exact .inr ((not_lt.mp fun hlt' => h (.inr (.inr ⟨hlt', hs, htiers⟩))).trans_lt hlt)
      rw [if_pos rfl, and_iff_right rfl, or_iff_right_of_imp hold, AnnounceBlocked, InWay]
      cases htiers : env.announceToAllTiers with
      | false => simp
      | true =>
        have heq : tier ≤ ae.tier ↔ ae.tier = tier := ⟨fun hge => le_antisymm hle hge, fun heq => heq.ge⟩
        simp only [Bool.not_true, Bool.and_false, true_and, heq, if_true, and_false, Bool.true_eq_false, or_false]
        exact (or_iff_right Bool.false_ne_true).trans (and_congr_right fun _ => and_iff_left htier)

theorem visitEndpoint_iff {aep : AnnounceEndpoint} : (env.visitEndpoint ae aep state).1 = true ↔
    env.TakesPart aep ∧ ¬ env.AnnounceBlocked state ae.tier ∧
      aep.infoHash.canAnnounce env.now env.isSeed ae.failLimit = true := by
  rw [visitEndpoint]
  split
  · next htakes =>
    refine Iff.trans ?_ (and_iff_right htakes).symm
    by_cases h : env.AnnounceBlocked state ae.tier
    · rw [visit_of_blocked h]
      exact iff_of_false Bool.false_ne_true fun hand => hand.1 h
    · rw [(visit_of_not_blocked h).1, and_iff_right h]
  · next htakes => exact iff_of_false Bool.false_ne_true fun hand => htakes hand.1

theorem announceBlocked_visitEndpoint {aep : AnnounceEndpoint} (hquiet : (env.visitEndpoint ae aep state).1 = false)
    (htier : ae.tier ≠ 2 ^ 31 - 1) (hle : ae.tier ≤ tier) :
    env.AnnounceBlocked (env.visitEndpoint ae aep state).2 tier ↔ env.AnnounceBlocked state tier ∨
      (env.TakesPart aep ∧ aep.infoHash.isWorking = true ∧ env.InWay ae.tier tier) := by
  rw [visitEndpoint] at hquiet ⊢
  split at hquiet
  · next htakes =>
    rw [if_pos htakes, announceBlocked_visit hquiet htier hle]
    exact or_congr_right (and_iff_right htakes).symm
  · next htakes =>
    rw [if_neg htakes]
    exact (or_iff_left fun hand => htakes hand.1).symm

/-- An announce sends something through a socket if it comes to an endpoint that may announce. -/
theorem asked_ne_nil_iff {socket : ℕ} {trackers : List AnnounceEntry}
    (hsorted : trackers.Pairwise fun a b => a.tier ≤ b.tier) (htier : ∀ t ∈ trackers, t.tier < 2 ^ 8) :
    env.asked socket state trackers ≠ [] ↔ ∃ pre ae post, trackers = pre ++ ae :: post ∧
      env.Reaches socket pre ae ∧ ¬ env.AnnounceBlocked state ae.tier ∧
        (ae.endpoint socket).infoHash.canAnnounce env.now env.isSeed ae.failLimit = true := by
  induction trackers generalizing state with
  | nil => simp [asked]
  | cons ae trackers ih =>
    obtain ⟨hfirst, hsorted⟩ := List.pairwise_cons.mp hsorted
    obtain ⟨hlt, htier⟩ := List.forall_mem_cons.mp htier
    have hne : ae.tier ≠ 2 ^ 31 - 1 := (hlt.trans (by decide)).ne
    rw [asked]
    cases hasked : (env.visitEndpoint ae (ae.endpoint socket) state).1 with
    | true =>
      obtain ⟨htakes, hfree, hcan⟩ := visitEndpoint_iff.mp hasked
      exact iff_of_true (by simp) ⟨[], ae, trackers, rfl, ⟨htakes, by simp⟩, hfree, hcan⟩
    | false =>
      rw [if_neg Bool.false_ne_true, ih hsorted htier]
      constructor
      · rintro ⟨pre, t, post, rfl, hreaches, hfree, hcan⟩
        rw [announceBlocked_visitEndpoint hasked hne (hfirst t (List.mem_append_right _ List.mem_cons_self))] at hfree
        obtain ⟨hfree, hway⟩ := not_or.mp hfree
        exact ⟨ae :: pre, t, post, rfl, ⟨hreaches.takesPart, List.forall_mem_cons.mpr
          ⟨fun htakes hworking hin => hway ⟨htakes, hworking, hin⟩, hreaches.inWay⟩⟩, hfree, hcan⟩
      · rintro ⟨pre, t, post, heq, hreaches, hfree, hcan⟩
        cases pre with
        | nil =>
          obtain ⟨rfl, -⟩ := List.cons.inj heq
          rw [visitEndpoint_iff.mpr ⟨hreaches.takesPart, hfree, hcan⟩] at hasked
          cases hasked
        | cons w pre =>
          obtain ⟨rfl, rfl⟩ := List.cons.inj heq
          obtain ⟨hway, hinWay⟩ := List.forall_mem_cons.mp hreaches.inWay
          refine ⟨pre, t, post, rfl, ⟨hreaches.takesPart, hinWay⟩, ?_, hcan⟩
          rw [announceBlocked_visitEndpoint hasked hne (hfirst t (List.mem_append_right _ List.mem_cons_self))]
          exact not_or.mpr ⟨hfree, fun hand => hway hand.1 hand.2.1 hand.2.2⟩

/-! ## An endpoint that the timer looks at -/

theorem endpoint_of_mem {aep : AnnounceEndpoint} (hnodup : (ae.endpoints.map AnnounceEndpoint.socket).Nodup)
    (hmem : aep ∈ ae.endpoints) : ae.endpoint aep.socket = aep := by
  rw [AnnounceEntry.endpoint]
  cases hfind : ae.endpoints.find? (·.socket = aep.socket) with
  | none => exact absurd (decide_eq_true rfl) (List.find?_eq_none.mp hfind aep hmem)
  | some x =>
    exact List.inj_on_of_nodup_map hnodup (List.mem_of_find?_eq_some hfind) hmem
      (of_decide_eq_true (List.find?_some hfind :))

theorem InWay.trans {tier' tier'' : ℕ} (h : env.InWay tier' tier'') (h' : env.InWay tier'' tier) :
    env.InWay tier' tier := by
  rw [InWay] at *
  split at h
  · next htiers =>
    rw [if_pos htiers] at h' ⊢
    exact ⟨h.1, h.2.trans h'.2⟩
  · next htiers =>
    rw [if_neg htiers] at h' ⊢
    rcases h with htrackers | hlt
    · exact .inl htrackers
    · exact h'.imp_right hlt.trans

/-- An endpoint that works counts for the timer. -/
theorem InWay.timerInWay (h : env.InWay ae.tier tier) (hworking : a.isWorking = true) : env.TimerInWay ae a tier := by
  have hfails : a.fails = 0 := of_decide_eq_true hworking
  have hcounts : Counts ae a := by
    refine ⟨?_, .inr hworking⟩
    rw [AnnounceInfohash.underLimit, hfails]
    rcases Nat.eq_zero_or_pos ae.failLimit with hzero | hpos
    · simp [hzero]
    · simp [hpos]
  rw [InWay] at h
  rw [TimerInWay]
  split
  · next htiers =>
    rw [if_pos htiers] at h
    exact ⟨h.1, h.2, hcounts⟩
  · next htiers =>
    rw [if_neg htiers] at h
    exact h.elim (fun htrackers => .inr ⟨htrackers, hcounts⟩) .inl

/-- At the time that the timer takes from an endpoint an announce comes to one that may announce. -/
theorem LooksAt.exists_reaches {pre : List AnnounceEntry} {aep : AnnounceEndpoint} (h : env.LooksAt pre ae aep)
    (hnodup : (ae.endpoints.map AnnounceEndpoint.socket).Nodup) {now : ℕ}
    (hdue : aep.infoHash.nextTrackerAnnounce ≤ now) : ∃ front t back, pre ++ [ae] = front ++ t :: back ∧
      env.Reaches aep.socket front t ∧
      (t.endpoint aep.socket).infoHash.canAnnounce now env.isSeed t.failLimit = true := by
  classical
  have hself := endpoint_of_mem hnodup h.mem
  cases hfind : pre.find? fun t => env.TakesPart (t.endpoint aep.socket) ∧
      (t.endpoint aep.socket).infoHash.isWorking = true ∧ env.InWay t.tier ae.tier with
  | none =>
    have hnone := List.find?_eq_none.mp hfind
    refine ⟨pre, ae, [], rfl, ⟨hself.symm ▸ h.takesPart, fun t ht htakes hworking hway => ?_⟩, ?_⟩
    · exact hnone t ht (decide_eq_true ⟨htakes, hworking, hway⟩)
    · rw [hself, AnnounceInfohash.canAnnounce]
      have hlimit := h.underLimit
      rw [AnnounceInfohash.underLimit] at hlimit
      obtain ⟨hnext, hmin⟩ := max_le_iff.mp hdue
      rw [hlimit, h.updating]
      simp [hnext.trans (Nat.le_succ now), hmin]
  | some t =>
    -- the first endpoint in the way is one that the timer has not seen
    obtain ⟨hp, front, back, heq, hfirst⟩ := List.find?_eq_some_iff_append.mp hfind
    obtain ⟨htakes, hworking, hway⟩ := of_decide_eq_true hp
    have hmem : t ∈ pre := heq ▸ List.mem_append_right _ List.mem_cons_self
    have hfresh : t.endpoint aep.socket = { socket := aep.socket } := by
      rw [AnnounceEntry.endpoint] at htakes hworking ⊢
      cases hfind' : t.endpoints.find? (·.socket = aep.socket) with
      | none => rfl
      | some x =>
        rw [hfind'] at htakes hworking
        exact absurd (hway.timerInWay hworking)
          (h.inWay t hmem x (List.mem_of_find?_eq_some hfind') (of_decide_eq_true (List.find?_some hfind' :)) htakes)
    refine ⟨front, t, back ++ [ae], by rw [heq]; simp, ⟨htakes, fun w hw hwtakes hwworking hwway => ?_⟩, ?_⟩
    · have hnot := hfirst w hw
      rw [decide_eq_true ⟨hwtakes, hwworking, hwway.trans hway⟩] at hnot
      cases hnot
    · rw [hfresh, AnnounceInfohash.canAnnounce]
      rcases Nat.eq_zero_or_pos t.failLimit with hzero | hpos
      · simp [hzero]
      · simp [hpos]

end AnnounceEnv

namespace TorrentTrackers

variable {s : TorrentTrackers} {sockets : List ℕ} {env : AnnounceEnv}

theorem effectiveEvent_of_announces (h : env.Announces) : ∃ e, env.effectiveEvent .none = some e ∧ e ≠ .stopped := by
  rw [AnnounceEnv.effectiveEvent, h.abort, h.paused, h.announceToTrackers]
  by_cases hpaused : env.isFinished = true ∧ env.isSeed = false
  · exact ⟨.paused, by simp [hpaused], by decide⟩
  · refine ⟨.none, ?_, by decide⟩
    simpa using fun hfinished => eq_true_of_ne_false fun hseed => hpaused ⟨hfinished, hseed⟩

/-- An announce sends a request if it comes to an endpoint that may announce. -/
theorem announce_sends_iff (henv : env.Announces) (h : AnnounceEnv.Listed s.trackers) (hsockets : sockets.Nodup) :
    s.sent.length < (s.announceWithTracker sockets env .none).sent.length ↔
      ∃ k ∈ sockets, ∃ pre ae post, s.trackers = pre ++ ae :: post ∧ env.Reaches k pre ae ∧
        (ae.endpoint k).infoHash.canAnnounce env.now env.isSeed ae.failLimit = true := by
  obtain ⟨e, he, hne⟩ := effectiveEvent_of_announces henv
  rw [announceWithTracker, he]
  dsimp only
  have hasked : ∀ k, env.asked k {} s.trackers ≠ [] ↔ ∃ pre ae post, s.trackers = pre ++ ae :: post ∧
      env.Reaches k pre ae ∧ (ae.endpoint k).infoHash.canAnnounce env.now env.isSeed ae.failLimit = true := by
    intro k
    rw [AnnounceEnv.asked_ne_nil_iff h.sorted h.tier_lt]
    refine exists_congr fun pre => exists_congr fun ae => exists_congr fun post =>
      and_congr_right fun heq => and_congr_right fun _ => and_iff_right ?_
    -- no tier is above the one that the state starts with
    rintro (hdone | ⟨-, -, hsent, -⟩ | ⟨-, hsent, -⟩)
    · cases hdone
    · cases hsent
    · cases hsent
  simp only [← hasked]
  rw [List.length_append, Nat.lt_add_right_iff_pos, List.length_pos_iff_exists_mem]
  constructor
  · rintro ⟨q, hq⟩
    rw [env.announceTrackers_requests _ _ hne hsockets s.trackers hne] at hq
    obtain ⟨k, hk, p, hp, -⟩ := hq.resolve_left List.not_mem_nil
    exact ⟨k, hk, List.ne_nil_of_mem hp⟩
  · rintro ⟨k, hk, hp⟩
    obtain ⟨p, hp⟩ := List.exists_mem_of_ne_nil _ hp
    refine ⟨env.request s.completeSent s.answered.length e p.1 p.2, ?_⟩
    rw [env.announceTrackers_requests _ _ hne hsockets s.trackers hne]
    exact .inr ⟨k, hk, p, hp, rfl⟩

/-- The endpoints of the trackers belong to the listen sockets, of which there are no two the same. -/
structure Listens (s : TorrentTrackers) (sockets : List ℕ) : Prop where
  listed : AnnounceEnv.Listed s.trackers
  nodup : sockets.Nodup
  mem : ∀ ae ∈ s.trackers, ∀ aep ∈ ae.endpoints, aep.socket ∈ sockets

/-- The timer is set to a time that it takes from an endpoint. -/
def TimerFrom (s : TorrentTrackers) (env : AnnounceEnv) (time : ℕ) : Prop :=
  s.updateTrackerTimer env = some time ∧ s.nextAnnounce env < timePointMax

theorem nextAnnounce_le_timer {time : ℕ} (h : s.TimerFrom env time) : s.nextAnnounce env ≤ time := by
  obtain ⟨hset, hlt⟩ := h
  rw [updateTrackerTimer] at hset
  split at hset
  · cases hset
  · split at hset
    · next hle => exact Option.some.inj hset ▸ hle
    · split at hset
      · next heq => exact absurd heq hlt.ne
      · exact (Option.some.inj hset).le

theorem TimerFrom.exists_looksAt {time : ℕ} (h : s.TimerFrom env time) (hlisted : AnnounceEnv.Listed s.trackers) :
    ∃ pre ae post aep, s.trackers = pre ++ ae :: post ∧ env.LooksAt pre ae aep ∧
      aep.infoHash.nextTrackerAnnounce ≤ time := by
  obtain ⟨pre, ae, post, aep, heq, hlooks, hle⟩ :=
    ((AnnounceEnv.nextAnnounce_le_iff hlisted env _).mp le_rfl).resolve_left h.2.not_ge
  exact ⟨pre, ae, post, aep, heq, hlooks, hle.trans (nextAnnounce_le_timer h)⟩

/-- The announce that the timer is set for sends a request. -/
theorem TimerFrom.sends {time : ℕ} (h : s.TimerFrom env time) (henv : env.Announces) (hs : s.Listens sockets) :
    s.sent.length < (s.announceWithTracker sockets { env with now := time } .none).sent.length := by
  obtain ⟨pre, ae, post, aep, heq, hlooks, hdue⟩ := h.exists_looksAt hs.listed
  have hmem : ae ∈ s.trackers := heq ▸ List.mem_append_right _ List.mem_cons_self
  obtain ⟨front, t, back, hsplit, hreaches, hcan⟩ := hlooks.exists_reaches (hs.listed.nodup ae hmem) hdue
  have henv' : AnnounceEnv.Announces { env with now := time } := ⟨henv.1, henv.2, henv.3⟩
  refine (announce_sends_iff henv' hs.listed hs.nodup).mpr
    ⟨aep.socket, hs.mem ae hmem aep hlooks.mem, front, t, back ++ post, ?_, ⟨hreaches.1, hreaches.2⟩, hcan⟩
  rw [heq, ← List.singleton_append, ← List.append_assoc, hsplit, List.append_assoc, List.cons_append]

/-! ## Announces at the same time -/

/-- The endpoints that have no request under way. -/
def idle (sockets : List ℕ) (trackers : List AnnounceEntry) : ℕ :=
  (trackers.map fun ae => (ae.refresh sockets).countP fun aep => !aep.infoHash.updating).sum

end TorrentTrackers

namespace AnnounceEnv

variable {env : AnnounceEnv} {completeSent : Bool} {responses : ℕ} {e : AnnounceEvent} {ae : AnnounceEntry}

theorem not_updating_of_visit {a : AnnounceInfohash} {state : AnnounceState} (h : (env.visit ae a state).1 = true) :
    a.updating = false := by
  by_cases hblocked : env.AnnounceBlocked state ae.tier
  · rw [visit_of_blocked hblocked] at h
    cases h
  · rw [(visit_of_not_blocked hblocked).1, AnnounceInfohash.canAnnounce, Bool.and_eq_true, Bool.not_eq_true'] at h
    exact h.2

section Loop

variable (env completeSent responses e ae) (sockets : List ℕ)

/-- A request goes through an endpoint that has none under way. -/
theorem announceEndpoint_idle (loop : AnnounceLoop) (aep : AnnounceEndpoint) :
    (env.announceEndpoint completeSent responses e ae loop aep).1.socket = aep.socket ∧
      (env.announceEndpoint completeSent responses e ae loop aep).2.requests.length +
        (!(env.announceEndpoint completeSent responses e ae loop aep).1.infoHash.updating).toNat =
      loop.requests.length + (!aep.infoHash.updating).toNat := by
  rw [announceEndpoint]
  dsimp only
  split
  · exact ⟨rfl, rfl⟩
  · split
    · exact ⟨rfl, rfl⟩
    · split
      · exact ⟨rfl, rfl⟩
      · split
        · exact ⟨rfl, rfl⟩
        · next hasked =>
          rw [not_updating_of_visit (not_not.mp hasked)]
          refine ⟨rfl, ?_⟩
          dsimp only
          rw [List.length_append]
          rfl

theorem announceEndpoints_idle (loop : AnnounceLoop) (endpoints : List AnnounceEndpoint) :
    (env.announceEndpoints completeSent responses e ae loop endpoints).1.map AnnounceEndpoint.socket =
        endpoints.map AnnounceEndpoint.socket ∧
      (env.announceEndpoints completeSent responses e ae loop endpoints).2.requests.length +
        (env.announceEndpoints completeSent responses e ae loop endpoints).1.countP
          (fun aep => !aep.infoHash.updating) =
      loop.requests.length + endpoints.countP fun aep => !aep.infoHash.updating := by
  have hcons : ∀ (aep : AnnounceEndpoint) endpoints, (aep :: endpoints).countP (fun aep => !aep.infoHash.updating) =
      (!aep.infoHash.updating).toNat + endpoints.countP fun aep => !aep.infoHash.updating := by
    intro aep endpoints
    rw [List.countP_cons, add_comm]
    cases aep.infoHash.updating <;> rfl
  induction endpoints generalizing loop with
  | nil => exact ⟨rfl, rfl⟩
  | cons aep endpoints ih =>
    obtain ⟨hsocket, hidle⟩ := announceEndpoint_idle env completeSent responses e ae loop aep
    rw [announceEndpoints]
    dsimp only
    obtain ⟨hsockets, hrest⟩ := ih (env.announceEndpoint completeSent responses e ae loop aep).2
    refine ⟨by rw [List.map_cons, hsocket, hsockets, List.map_cons], ?_⟩
    rw [hcons, hcons]
    omega

variable {ae} {sockets}

theorem refresh_eq_self (hsockets : sockets.Nodup) (h : ae.endpoints.map AnnounceEndpoint.socket = sockets) :
    ae.refresh sockets = ae.endpoints := by
  rw [AnnounceEntry.refresh, ← h, List.map_map]
  refine (List.map_congr_left fun aep haep => ?_).trans (List.map_id _)
  exact endpoint_of_mem (h.symm ▸ hsockets) haep

/-- What an announce leaves of a tracker. -/
def Announced (sockets : List ℕ) (ae ae' : AnnounceEntry) : Prop :=
  ae'.tier = ae.tier ∧ (ae' = ae ∨ ae'.endpoints.map AnnounceEndpoint.socket = sockets)

theorem announceTrackers_idle (hsockets : sockets.Nodup) (trackers : List AnnounceEntry) (loop : AnnounceLoop) :
    List.Forall₂ (Announced sockets) trackers (env.announceTrackers sockets completeSent responses e loop trackers).1 ∧
      (env.announceTrackers sockets completeSent responses e loop trackers).2.requests.length +
        TorrentTrackers.idle sockets (env.announceTrackers sockets completeSent responses e loop trackers).1 =
      loop.requests.length + TorrentTrackers.idle sockets trackers := by
  have hcons : ∀ (t : AnnounceEntry) trackers, TorrentTrackers.idle sockets (t :: trackers) =
      (t.refresh sockets).countP (fun aep => !aep.infoHash.updating) + TorrentTrackers.idle sockets trackers :=
    fun _ _ => rfl
  induction trackers generalizing loop with
  | nil => exact ⟨.nil, rfl⟩
  | cons ae trackers ih =>
    obtain ⟨hsocket, hidle⟩ := announceEndpoints_idle env completeSent responses e ae loop (ae.refresh sockets)
    have hrefresh : (ae.refresh sockets).map AnnounceEndpoint.socket = sockets := by
      rw [AnnounceEntry.refresh, List.map_map]
      exact (List.map_congr_left fun k _ => endpoint_socket ae k).trans (List.map_id _)
    rw [hrefresh] at hsocket
    rw [announceTrackers]
    dsimp only
    generalize env.announceEndpoints completeSent responses e ae loop (ae.refresh sockets) = first at hsocket hidle ⊢
    have hself : AnnounceEntry.refresh { ae with endpoints := first.1 } sockets = first.1 :=
      refresh_eq_self hsockets hsocket
    have hann : Announced sockets ae { ae with endpoints := first.1 } := ⟨rfl, .inr hsocket⟩
    split
    · refine ⟨.cons hann (List.forall₂_same.mpr fun t _ => ⟨rfl, .inl rfl⟩), ?_⟩
      dsimp only
      rw [hcons, hcons, hself]
      omega
    · obtain ⟨hall, hrest⟩ := ih first.2
      refine ⟨.cons hann hall, ?_⟩
      dsimp only
      rw [hcons, hcons, hself]
      omega

end Loop

end AnnounceEnv

namespace TorrentTrackers

variable {s : TorrentTrackers} {sockets : List ℕ} {env : AnnounceEnv}

theorem announceWithTracker_idle (henv : env.Announces) (hs : s.Listens sockets) :
    (s.announceWithTracker sockets env .none).Listens sockets ∧
      (s.announceWithTracker sockets env .none).trackers.length = s.trackers.length ∧
      (s.announceWithTracker sockets env .none).sent.length +
        idle sockets (s.announceWithTracker sockets env .none).trackers = s.sent.length + idle sockets s.trackers := by
  obtain ⟨e, he, -⟩ := effectiveEvent_of_announces henv
  obtain ⟨hall, hidle⟩ := AnnounceEnv.announceTrackers_idle env s.completeSent s.answered.length e hs.nodup s.trackers
    { reqEvent := e }
  rw [announceWithTracker, he]
  dsimp only
  generalize env.announceTrackers sockets s.completeSent s.answered.length e { reqEvent := e } s.trackers = r
    at hall hidle ⊢
  have htier : r.1.map AnnounceEntry.tier = s.trackers.map AnnounceEntry.tier := by
    have heq : List.Forall₂ (· = ·) (s.trackers.map AnnounceEntry.tier) (r.1.map AnnounceEntry.tier) :=
      List.forall₂_map_left_iff.mpr (List.forall₂_map_right_iff.mpr (hall.imp fun _ _ h => h.1.symm))
    exact (List.forall₂_eq_eq_eq ▸ heq).symm
  have hmem : ∀ ae' ∈ r.1, ∃ ae ∈ s.trackers, AnnounceEnv.Announced sockets ae ae' := by
    intro ae' hae'
    obtain ⟨i, hi, rfl⟩ := List.getElem_of_mem hae'
    have hi' : i < s.trackers.length := hall.length_eq.symm ▸ hi
    exact ⟨s.trackers[i], List.getElem_mem hi', hall.get hi' hi⟩
  refine ⟨⟨⟨?_, fun ae' hae' => ?_, fun ae' hae' => ?_⟩, hs.nodup, fun ae' hae' aep haep => ?_⟩,
    hall.length_eq.symm, ?_⟩
  · exact List.pairwise_map.mp (htier ▸ List.pairwise_map.mpr hs.listed.sorted)
  · obtain ⟨ae, hae, htier, -⟩ := hmem ae' hae'
    exact htier ▸ hs.listed.tier_lt ae hae
  · obtain ⟨ae, hae, -, rfl | hsockets⟩ := hmem ae' hae'
    · exact hs.listed.nodup _ hae
    · rw [hsockets]
      exact hs.nodup
  · obtain ⟨ae, hae, -, rfl | hsockets⟩ := hmem ae' hae'
    · exact hs.mem _ hae aep haep
    · exact hsockets ▸ List.mem_map_of_mem haep
  · rw [List.length_append]
    change r.2.requests.length + _ = 0 + _ at hidle
    omega

/-- The torrent announces again and again at one time. -/
def announceTimes (s : TorrentTrackers) (sockets : List ℕ) (env : AnnounceEnv) : ℕ → TorrentTrackers
  | 0 => s
  | n + 1 => (announceTimes s sockets env n).announceWithTracker sockets env .none

theorem announceTimes_idle (henv : env.Announces) (hs : s.Listens sockets) (n : ℕ)
    (h : ∀ k < n, (s.announceTimes sockets env k).TimerFrom env env.now) :
    (s.announceTimes sockets env n).Listens sockets ∧
      n + idle sockets (s.announceTimes sockets env n).trackers ≤ idle sockets s.trackers := by
  induction n with
  | zero => exact ⟨hs, (Nat.zero_add _).le⟩
  | succ n ih =>
    obtain ⟨hlistens, hle⟩ := ih fun k hk => h k (hk.trans (Nat.lt_succ_self n))
    have hsends := (h n (Nat.lt_succ_self n)).sends henv hlistens
    obtain ⟨hnext, -, hidle⟩ := announceWithTracker_idle henv hlistens
    refine ⟨hnext, ?_⟩
    rw [announceTimes]
    change _ < ((announceTimes s sockets env n).announceWithTracker sockets env .none).sent.length at hsends
    omega

theorem idle_le (sockets : List ℕ) (trackers : List AnnounceEntry) :
    idle sockets trackers ≤ trackers.length * sockets.length := by
  have hle := List.sum_le_card_nsmul
    (trackers.map fun ae => (ae.refresh sockets).countP fun aep => !aep.infoHash.updating) sockets.length fun n hn => by
      obtain ⟨ae, -, rfl⟩ := List.mem_map.mp hn
      refine List.countP_le_length.trans ?_
      rw [AnnounceEntry.refresh, List.length_map]
  rwa [List.length_map, smul_eq_mul] at hle

/-- The announce that the timer is set for sends a request, and so the timer is not set again and again to the
present moment. -/
theorem timer_announces (henv : env.Announces) (hs : s.Listens sockets) :
    (∀ time, s.TimerFrom env time →
      s.sent.length < (s.announceWithTracker sockets { env with now := time } .none).sent.length) ∧
    ∀ n, (∀ k < n, (s.announceTimes sockets env k).TimerFrom env env.now) →
      n ≤ s.trackers.length * sockets.length := by
  refine ⟨fun time h => h.sends henv hs, fun n h => ?_⟩
  exact (Nat.le_add_right _ _).trans ((announceTimes_idle henv hs n h).2.trans (idle_le sockets s.trackers))

/-- A tracker that is due at the time 5, with an endpoint for each of these sockets. -/
def dueTracker (sockets : List ℕ) : AnnounceEntry where
  id := 0
  url := "http://a/".toList
  tier := 0
  endpoints := sockets.map fun socket => { socket, infoHash := { nextAnnounce := 5, minAnnounce := 5 } }

def dueTorrent (sockets : List ℕ) : TorrentTrackers where
  trackers := [dueTracker sockets]

/-- The tracker of the first tier is due later than the one of the second. -/
def twoTiers : TorrentTrackers where
  trackers := [
    { id := 0
      url := "http://b/".toList
      tier := 0
      endpoints := [0, 1].map fun socket => { socket, infoHash := { nextAnnounce := 9, minAnnounce := 9 } } },
    { dueTracker [0, 1] with id := 1, tier := 1 }]

theorem timer_announces_due : twoTiers.TimerFrom { downloading 1 with announceToAllTrackers := false } 5 ∧
    twoTiers.sent.length < (twoTiers.announceWithTracker [0, 1]
      { downloading 1 with announceToAllTrackers := false, now := 5 } .none).sent.length := by
  have htimer : twoTiers.TimerFrom { downloading 1 with announceToAllTrackers := false } 5 := ⟨by decide, by decide⟩
  refine ⟨htimer, (timer_announces ⟨rfl, rfl, rfl⟩ ⟨⟨?_, by decide, by decide⟩, by decide, by decide⟩).1 5 htimer⟩
  exact .cons (fun ae hae => by rw [List.mem_singleton.mp hae]; decide) (List.pairwise_singleton _ _)

/-- The announce that the timer is set for sends nothing if the torrent does not announce to trackers, or if the
endpoint is one of a socket that is gone. -/
theorem not_timer_announces :
    ((dueTorrent [0]).TimerFrom { downloading 1 with announceToTrackers := false } 5 ∧
      ((dueTorrent [0]).announceWithTracker [0] { downloading 5 with announceToTrackers := false } .none).sent = []) ∧
    ((dueTorrent [0]).TimerFrom (downloading 1) 5 ∧
      ((dueTorrent [0]).announceWithTracker [] (downloading 5) .none).sent = []) :=
  ⟨⟨⟨by decide, by decide⟩, by decide⟩, ⟨by decide, by decide⟩, by decide⟩

end TorrentTrackers

end Tracker

end LibtorrentSN
