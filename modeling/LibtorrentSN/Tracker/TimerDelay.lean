import LibtorrentSN.Tracker.TimerReach

/-!
# Announces that the timer delays

The timer is to be set for the first time at which an announce would send a request, up to the second of slack that
`can_announce` gives. It is not where an announce passes over endpoints that the timer stops at.
-/

namespace LibtorrentSN

namespace Tracker

namespace AnnounceEnv

variable (env : AnnounceEnv)

/-- A completed event is still to be sent through the endpoint. -/
def NeedsComplete (a : AnnounceInfohash) : Prop := env.isSeed = true ∧ a.completeSent = false

instance (a : AnnounceInfohash) : Decidable (env.NeedsComplete a) := inferInstanceAs (Decidable (_ ∧ _))

/-- The first time at which the endpoint may announce. -/
def announceDue (a : AnnounceInfohash) : ℕ :=
  max (a.nextAnnounce - 1) (if env.NeedsComplete a then 0 else a.minAnnounce)

/-- The endpoint of a tracker behind these can be used once it is due. -/
structure Usable (socket : ℕ) (front : List AnnounceEntry) (ae : AnnounceEntry) : Prop
    extends env.Reaches socket front ae where
  underLimit : (ae.endpoint socket).infoHash.underLimit ae.failLimit = true
  updating : (ae.endpoint socket).infoHash.updating = false

/-- The timer looks at the endpoint, and its time is one. -/
def TakesTime (front : List AnnounceEntry) (ae : AnnounceEntry) (aep : AnnounceEndpoint) : Prop :=
  env.LooksAt front ae aep ∧ aep.infoHash.nextTrackerAnnounce < timePointMax

/-- The timer does not look at the endpoint, or it waits for the next announce although a completed event may be sent
before. -/
def Overlooked (socket : ℕ) (front : List AnnounceEntry) (ae : AnnounceEntry) : Prop :=
  ¬ env.TakesTime front ae (ae.endpoint socket) ∨ (env.NeedsComplete (ae.endpoint socket).infoHash ∧
    (ae.endpoint socket).infoHash.nextAnnounce < (ae.endpoint socket).infoHash.minAnnounce)

variable {env} {a : AnnounceInfohash}

variable (env) in
theorem canAnnounce_iff {now failLimit : ℕ} : a.canAnnounce now env.isSeed failLimit = true ↔
    a.underLimit failLimit = true ∧ a.updating = false ∧ env.announceDue a ≤ now := by
  have hmin : (if env.NeedsComplete a then 0 else a.minAnnounce) ≤ now ↔ a.minAnnounce ≤ now ∨ env.NeedsComplete a := by
    split
    · next hneeds => exact iff_of_true (Nat.zero_le now) (.inr hneeds)
    · next hneeds => exact (or_iff_left hneeds).symm
  rw [announceDue, max_le_iff, hmin, Nat.sub_le_iff_le_add, NeedsComplete, AnnounceInfohash.canAnnounce,
    AnnounceInfohash.underLimit]
  simp only [Bool.and_eq_true, Bool.or_eq_true, Bool.not_eq_true', decide_eq_true_eq]
  constructor
  · rintro ⟨⟨⟨hnext, hmin⟩, hlimit⟩, hupdating⟩
    exact ⟨hlimit, hupdating, hnext, hmin⟩
  · rintro ⟨hlimit, hupdating, hnext, hmin⟩
    exact ⟨⟨⟨hnext, hmin⟩, hlimit⟩, hupdating⟩

/-- The timer is at most the second of slack behind an endpoint. -/
theorem nextTrackerAnnounce_le (h : ¬ (env.NeedsComplete a ∧ a.nextAnnounce < a.minAnnounce)) :
    a.nextTrackerAnnounce ≤ env.announceDue a + 1 := by
  have hnext : a.nextAnnounce ≤ env.announceDue a + 1 := Nat.sub_le_iff_le_add.mp (le_max_left _ _)
  refine max_le hnext ?_
  by_cases hneeds : env.NeedsComplete a
  · exact (not_lt.mp fun hlt => h ⟨hneeds, hlt⟩).trans hnext
  · have hmin : (if env.NeedsComplete a then 0 else a.minAnnounce) ≤ env.announceDue a := le_max_right _ _
    rw [if_neg hneeds] at hmin
    exact hmin.trans (Nat.le_succ _)

end AnnounceEnv

namespace TorrentTrackers

/-- The timer is set to a time that is not after this one: it takes the time of an endpoint, or none is looked at and
a minute is over. -/
def InTime (s : TorrentTrackers) (env : AnnounceEnv) (time : ℕ) : Prop :=
  (∃ pre ae post aep, s.trackers = pre ++ ae :: post ∧ env.TakesTime pre ae aep ∧
    aep.infoHash.nextTrackerAnnounce ≤ time) ∨
  ((∀ pre ae post aep, s.trackers = pre ++ ae :: post → ¬ env.TakesTime pre ae aep) ∧ env.now + 60 ≤ time)

/-- The timer is set to at most a second after any later time at which an announce would send a request. -/
def Undelayed (s : TorrentTrackers) (sockets : List ℕ) (env : AnnounceEnv) : Prop :=
  ∀ time, env.now < time →
    s.sent.length < (s.announceWithTracker sockets { env with now := time } .none).sent.length →
      ∀ timer, s.updateTrackerTimer env = some timer → timer ≤ time + 1

variable {s : TorrentTrackers} {sockets : List ℕ} {env : AnnounceEnv}

theorem exists_takesTime_iff (h : AnnounceEnv.Listed s.trackers) {time : ℕ} (htime : time < timePointMax) :
    s.nextAnnounce env ≤ time ↔ ∃ pre ae post aep, s.trackers = pre ++ ae :: post ∧ env.TakesTime pre ae aep ∧
      aep.infoHash.nextTrackerAnnounce ≤ time := by
  rw [AnnounceEnv.nextAnnounce_le_iff h, or_iff_right htime.not_ge]
  constructor
  · rintro ⟨pre, ae, post, aep, heq, hlooks, hle⟩
    exact ⟨pre, ae, post, aep, heq, ⟨hlooks, hle.trans_lt htime⟩, hle⟩
  · rintro ⟨pre, ae, post, aep, heq, htakes, hle⟩
    exact ⟨pre, ae, post, aep, heq, htakes.1, hle⟩

theorem timer_le_iff (h : AnnounceEnv.Listed s.trackers) (hannouncing : s.announcing = true)
    (hnow : env.now < timePointMax) {time : ℕ} (htime : env.now ≤ time) :
    (∀ timer, s.updateTrackerTimer env = some timer → timer ≤ time) ↔ s.InTime env time := by
  -- an endpoint whose time is taken is not before the time that the loop finds
  have hle : ∀ {pre ae post aep}, s.trackers = pre ++ ae :: post → env.TakesTime pre ae aep →
      s.nextAnnounce env ≤ aep.infoHash.nextTrackerAnnounce := fun heq htakes =>
    (exists_takesTime_iff h htakes.2).mpr ⟨_, _, _, _, heq, htakes, le_rfl⟩
  have hmax : s.nextAnnounce env ≤ timePointMax := (AnnounceEnv.nextAnnounce_le_iff h env _).mpr (.inl le_rfl)
  rw [updateTrackerTimer, if_neg (not_not.mpr hannouncing)]
  split
  · next hbefore =>
    obtain ⟨pre, ae, post, aep, heq, htakes, hv⟩ := (exists_takesTime_iff h hnow).mp hbefore
    refine iff_of_true (fun timer htimer => ?_) (.inl ⟨pre, ae, post, aep, heq, htakes, hv.trans htime⟩)
    exact Option.some.inj htimer ▸ htime
  · split
    · next hnone =>
      have hnot : ∀ pre ae post aep, s.trackers = pre ++ ae :: post → ¬ env.TakesTime pre ae aep :=
        fun pre ae post aep heq htakes => htakes.2.not_ge (hnone ▸ hle heq htakes)
      constructor
      · exact fun hall => .inr ⟨hnot, hall _ rfl⟩
      · rintro (⟨pre, ae, post, aep, heq, htakes, -⟩ | ⟨-, hminute⟩) timer htimer
        · exact absurd htakes (hnot pre ae post aep heq)
        · exact Option.some.inj htimer ▸ hminute
    · next hsome =>
      obtain ⟨pre, ae, post, aep, heq, htakes, hv⟩ :=
        (exists_takesTime_iff h (lt_of_le_of_ne hmax hsome)).mp le_rfl
      constructor
      · exact fun hall => .inl ⟨pre, ae, post, aep, heq, htakes, hv.trans (hall _ rfl)⟩
      · rintro (⟨pre', ae', post', aep', heq', htakes', hv'⟩ | ⟨hnot, -⟩) timer htimer
        · exact Option.some.inj htimer ▸ (hle heq' htakes').trans hv'
        · exact absurd htakes (hnot pre ae post aep heq)

/-- The timer delays no announce if and only if it is in time for each endpoint that it overlooks and that an announce
can use. -/
theorem undelayed_iff (henv : env.Announces) (hannouncing : s.announcing = true)
    (h : AnnounceEnv.Listed s.trackers) (hsockets : sockets.Nodup) (hnow : env.now < timePointMax) :
    s.Undelayed sockets env ↔ ∀ pre ae post, s.trackers = pre ++ ae :: post → ∀ k ∈ sockets, env.Usable k pre ae →
      env.Overlooked k pre ae →
        s.InTime env (max (env.now + 1) (env.announceDue (ae.endpoint k).infoHash) + 1) := by
  have hsends : ∀ time, s.sent.length < (s.announceWithTracker sockets { env with now := time } .none).sent.length ↔
      ∃ pre ae post, s.trackers = pre ++ ae :: post ∧ ∃ k ∈ sockets, env.Usable k pre ae ∧
        env.announceDue (ae.endpoint k).infoHash ≤ time := by
    intro time
    have henv' : AnnounceEnv.Announces { env with now := time } := ⟨henv.1, henv.2, henv.3⟩
    rw [announce_sends_iff henv' h hsockets]
    constructor
    · rintro ⟨k, hk, pre, ae, post, heq, hreaches, hcan⟩
      obtain ⟨hlimit, hupdating, hdue⟩ := (AnnounceEnv.canAnnounce_iff env).mp hcan
      exact ⟨pre, ae, post, heq, k, hk, ⟨⟨hreaches.1, hreaches.2⟩, hlimit, hupdating⟩, hdue⟩
    · rintro ⟨pre, ae, post, heq, k, hk, husable, hdue⟩
      exact ⟨k, hk, pre, ae, post, heq, ⟨husable.1.1, husable.1.2⟩,
        (AnnounceEnv.canAnnounce_iff env).mpr ⟨husable.underLimit, husable.updating, hdue⟩⟩
  have hundelayed : s.Undelayed sockets env ↔ ∀ time, env.now < time →
      (∃ pre ae post, s.trackers = pre ++ ae :: post ∧ ∃ k ∈ sockets, env.Usable k pre ae ∧
        env.announceDue (ae.endpoint k).infoHash ≤ time) → s.InTime env (time + 1) := by
    refine forall₂_congr fun time hlt => ?_
    rw [hsends, timer_le_iff h hannouncing hnow (hlt.le.trans (Nat.le_succ time))]
  rw [hundelayed]
  constructor
  · intro hall pre ae post heq k hk husable _
    exact hall _ (lt_of_lt_of_le (Nat.lt_succ_self _) (le_max_left _ _))
      ⟨pre, ae, post, heq, k, hk, husable, le_max_right _ _⟩
  · rintro hall time hlt ⟨pre, ae, post, heq, k, hk, husable, hdue⟩
    have hmax : max (env.now + 1) (env.announceDue (ae.endpoint k).infoHash) + 1 ≤ time + 1 :=
      Nat.succ_le_succ (max_le hlt hdue)
    by_cases hover : env.Overlooked k pre ae
    · rcases hall pre ae post heq k hk husable hover with ⟨pre', ae', post', aep', heq', htakes, hle⟩ | ⟨hnot, hle⟩
      · exact .inl ⟨pre', ae', post', aep', heq', htakes, hle.trans hmax⟩
      · exact .inr ⟨hnot, hle.trans hmax⟩
    · -- the timer takes the time of the endpoint itself
      obtain ⟨htakes, hcomplete⟩ := not_or.mp hover
      refine .inl ⟨pre, ae, post, ae.endpoint k, heq, not_not.mp htakes, ?_⟩
      exact (AnnounceEnv.nextTrackerAnnounce_le hcomplete).trans (Nat.succ_le_succ hdue)

/-- Two trackers of different tiers, the first of which has failed and waits. -/
def failingTier : TorrentTrackers where
  trackers :=
    [{ id := 0, url := "http://a/".toList, tier := 0
       endpoints := [{ socket := 0, infoHash := { nextAnnounce := 1000, fails := 3 } }] },
      { id := 1, url := "http://b/".toList, tier := 1
        endpoints := [{ socket := 0, infoHash := { nextAnnounce := 10 } }] }]

/-- A torrent that downloads and announces to one tracker of a socket only. -/
def oneTracker : AnnounceEnv where
  now := 1
  isSeed := false
  isFinished := false

/-- The timer looks at the one tracker that is due. -/
theorem undelayed_iff_due : (dueTorrent [0]).Undelayed [0] oneTracker := by
  have hlisted : AnnounceEnv.Listed (dueTorrent [0]).trackers :=
    ⟨List.pairwise_singleton _ _, by decide, by decide⟩
  refine (undelayed_iff ⟨rfl, rfl, rfl⟩ rfl hlisted (by decide) (by decide)).mpr ?_
  intro pre ae post heq k hk husable hover
  cases pre with
  | cons t pre => exact absurd (List.cons.inj heq).2.symm (List.append_ne_nil_of_right_ne_nil _ (List.cons_ne_nil _ _))
  | nil =>
    obtain ⟨rfl, -⟩ := List.cons.inj heq
    obtain rfl := List.mem_singleton.mp hk
    have hlooks : oneTracker.LooksAt [] (dueTracker [0]) ((dueTracker [0]).endpoint 0) :=
      ⟨by decide, ⟨rfl, rfl⟩, by decide, by decide, by simp,
        fun before hpre hstops => hstops.1 (List.prefix_nil.mp hpre)⟩
    rcases hover with htakes | hcomplete
    · exact absurd ⟨hlooks, by decide⟩ htakes
    · exact absurd hcomplete.1.1 (by decide)

/-- The timer waits for the first tracker while an announce would use the second one. -/
theorem not_undelayed : ¬ failingTier.Undelayed [0] oneTracker := by
  intro h
  have hle := h 10 (by decide) (by decide) 1000 (by decide)
  exact absurd hle (by decide)

end TorrentTrackers

end Tracker

end LibtorrentSN
