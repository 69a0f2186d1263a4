import BlackCat.TimerLoop

/-!
When timers are executed. From the invariant of the loop follow the bounds on
the times between two executions of a timer, and that `GetRestTime` tells, to
the millisecond, how long the next one will take at least.
-/
namespace BlackCat.TimerLoop

open Runs Timers

variable {κ : Type*}

/-- A timer leaves the table only by `Cancel`. -/
theorem eq_cancel_of_step {s t : State κ} {e : Event κ} {timerId : UInt32}
    (hstep : step s e = some t) (h : s.lives timerId ≠ none → s.mgr.timerMap timerId ≠ none)
    (hlife : t.lives timerId ≠ none) (hgone : t.mgr.timerMap timerId = none) :
    e = .cancel timerId := by
  cases e with
  | pass time =>
    cases hstep
    exact absurd hgone (h hlife)
  | addTimer func interval =>
    simp only [step] at hstep
    split at hstep <;> cases hstep
    by_cases hid : timerId = s.mgr.timerId
    · simp [Timers.addTimer, hid] at hgone
    · simp only [Timers.addTimer, Function.update_of_ne hid] at hlife hgone
      exact absurd hgone (h hlife)
  | cancel other =>
    simp only [step] at hstep
    split at hstep <;> cases hstep
    by_cases hid : timerId = other
    · rw [hid]
    · simp only [Timers.cancel, Function.update_of_ne hid] at hgone
      exact absurd hgone (h hlife)
  | expire order =>
    simp only [step] at hstep
    split at hstep
    · split at hstep <;> cases hstep
      exact absurd hgone (h hlife)
    · cases hstep
  | look =>
    simp only [step] at hstep
    split at hstep <;> cases hstep <;> exact absurd hgone (h hlife)
  | next =>
    simp only [step] at hstep
    split at hstep
    · next executed due hphase =>
      split at hstep <;> cases hstep
      · exact absurd hgone (h hlife)
      · by_cases hid : timerId = executed
        · simp [restart, hid] at hgone
        · simp only [restart, Function.update_of_ne hid] at hlife hgone
          exact absurd hgone (h hlife)
    · cases hstep
      exact absurd hgone (h hlife)
    · cases hstep
  | back =>
    simp only [step] at hstep
    split at hstep <;> cases hstep
    exact absurd hgone (h hlife)

theorem cancel_mem_of_run {s t : State κ} {events : List (Event κ)} {timerId : UInt32}
    (hrun : run step s events = some t)
    (h : s.lives timerId ≠ none → s.mgr.timerMap timerId ≠ none)
    (hlife : t.lives timerId ≠ none) (hgone : t.mgr.timerMap timerId = none) :
    .cancel timerId ∈ events := by
  induction events generalizing s with
  | nil =>
    cases hrun
    exact absurd hgone (h hlife)
  | cons e rest ih =>
    obtain ⟨u, hstep, hrest⟩ := exists_of_run_cons hrun
    by_cases hkept : u.lives timerId ≠ none → u.mgr.timerMap timerId ≠ none
    · exact List.mem_cons_of_mem e (ih hrest hkept)
    · rw [Classical.not_imp, not_not] at hkept
      rw [eq_cancel_of_step hstep h hkept.1 hkept.2]
      exact List.mem_cons_self

def addedTimer : List (Event Unit) := [.addTimer () 3, .pass 1000000]

/-- Two ticks of the manager that execute a timer of three milliseconds. -/
def twoTicks : List (Event Unit) :=
  [.pass 2000000, .expire [7], .look, .look, .next, .back, .next, .pass 3000000,
    .expire [7], .look, .look, .next]

theorem iterates_singleton {mgr : TimerMgr κ} {timerId : UInt32}
    (h : ∀ other, mgr.timerMap other ≠ none ↔ other = timerId) : Iterates mgr [timerId] :=
  ⟨List.nodup_singleton timerId, fun other => by rw [List.mem_singleton, h]⟩

theorem admissible_twoTicks :
    Always step (Admissible 4000000) (construct 7 0) (addedTimer ++ twoTicks) := by
  iterate 3 refine Always.cons ?_ (rfl : step _ _ = some _) (by unfold Admissible; decide)
  refine Always.cons ?_ (rfl : step _ _ = some _) (iterates_singleton ?_)
  · iterate 5 refine Always.cons ?_ (rfl : step _ _ = some _) trivial
    refine Always.cons ?_ (rfl : step _ _ = some _) (by unfold Admissible; decide)
    refine Always.cons ?_ (rfl : step _ _ = some _) (iterates_singleton ?_)
    · iterate 3 refine Always.cons ?_ (rfl : step _ _ = some _) trivial
      trivial
    · intro other
      by_cases h : other = 7 <;> simp [restart, Timers.addTimer, construct, h]
  · intro other
    by_cases h : other = 7 <;> simp [Timers.addTimer, construct, h]

/-- The conversion to `int32` keeps the low 32 bits. -/
def getRestTick (timer : Timer κ) (now : ℤ) : Int32 :=
  Int32.ofInt ((nanoseconds timer.interval - (now - timer.timer)).tdiv 1000000)

def getRestTime (mgr : TimerMgr κ) (timeId : UInt32) (now : ℤ) : Int32 :=
  match mgr.timerMap timeId with
  | some timer => getRestTick timer now
  | none => 0

theorem tdiv_bounds (rest : ℤ) :
    rest < (rest.tdiv 1000000 + 1) * 1000000 ∧
      (rest.tdiv 1000000 * 1000000 ≤ rest ∨ rest.tdiv 1000000 ≤ 0) ∧
      (rest.tdiv 1000000 - 1) * 1000000 < rest := by
  rcases Int.le_total 0 rest with hsign | hsign
  · rw [Int.tdiv_eq_ediv_of_nonneg hsign]
    omega
  · obtain ⟨excess, rfl⟩ : ∃ excess, rest = -excess := ⟨-rest, (Int.neg_neg rest).symm⟩
    rw [Int.neg_tdiv, Int.tdiv_eq_ediv_of_nonneg (by omega)]
    omega

/-- The histories of a later state are those of an earlier one with the executions since. -/
structure Continues (s t : State κ) : Prop where
  clock : s.now ≤ t.now
  lives : ∀ timerId life, s.lives timerId = some life → ∃ newer,
    t.lives timerId = some { life with executed := newer ++ life.executed } ∧
      ∀ x ∈ newer, s.now ≤ x

theorem Continues.refl (s : State κ) : Continues s s :=
  ⟨Int.le_refl _, fun _ _ hlife => ⟨[], hlife, fun _ hx => absurd hx List.not_mem_nil⟩⟩

theorem Continues.step {first : UInt32} {delay : ℕ} {s t u : State κ} (h : Continues s t)
    (hcount : Counted first t) {e : Event κ} (hok : Admissible delay t e)
    (hstep : TimerLoop.step t e = some u) : Continues s u := by
  obtain ⟨hclock, hcases⟩ := step_lives hstep
  refine ⟨Int.le_trans h.clock hclock, ?_⟩
  intro timerId life hlife
  obtain ⟨newer, hnewer, hafter⟩ := h.lives timerId life hlife
  rcases hcases with ⟨hlives, _⟩ | ⟨interval, hlives, _, _, func, rfl⟩ | ⟨executed, hlives, _⟩
  · exact ⟨newer, hlives ▸ hnewer, hafter⟩
  · have hunused := hcount.unused hok
    have hother : timerId ≠ t.mgr.timerId := by
      rintro rfl
      rw [hunused] at hnewer
      cases hnewer
    exact ⟨newer, by rw [hlives, Function.update_of_ne hother, hnewer], hafter⟩
  · by_cases hid : timerId = executed
    · subst hid
      refine ⟨t.now :: newer, ?_, List.forall_mem_cons.mpr ⟨h.clock, hafter⟩⟩
      rw [hlives, Function.update_self, hnewer]
      rfl
    · exact ⟨newer, by rw [hlives, Function.update_of_ne hid, hnewer], hafter⟩

theorem continues_of_run {first : UInt32} {delay : ℕ} {s t : State κ} {events : List (Event κ)}
    (hs : Counted first s ∧ Sound delay s) (hok : Always step (Admissible delay) s events)
    (hrun : run step s events = some t) : Continues s t := by
  have hboth : (Counted first t ∧ Sound delay t) ∧ Continues s t := by
    refine @invariant _ _ step (Admissible delay)
      (fun u => (Counted first u ∧ Sound delay u) ∧ Continues s u) ?_ s t events
      ⟨hs, Continues.refl s⟩ hok hrun
    rintro u e v ⟨hu, hcontinues⟩ hadmissible hstep
    exact ⟨keep u e v hu hadmissible hstep, hcontinues.step hu.1 hadmissible hstep⟩
  exact hboth.2

theorem Life.Paced.since {delay : ℕ} {life : Life} {newer : List ℤ}
    (h : Life.Paced delay { life with executed := newer ++ life.executed }) :
    (∀ x ∈ newer, life.started + nanoseconds life.interval ≤ x) ∧
      ∀ x ∈ newer.getLast?,
        x ≤ life.started + nanoseconds life.interval + 2 * delay := by
  have hchain := h.apart
  simp only [Life.starts, List.append_assoc] at hchain
  clear h
  induction newer with
  | nil => simp
  | cons x rest ih =>
    rw [List.cons_append, List.isChain_cons] at hchain
    obtain ⟨hhead, hrest⟩ := hchain
    obtain ⟨hafter, hfirst⟩ := ih hrest
    rw [List.forall_mem_cons]
    cases rest with
    | nil =>
      have hgap := hhead life.started life.head_starts
      refine ⟨⟨hgap.1, hafter⟩, ?_⟩
      intro y hy
      cases hy
      exact hgap.2
    | cons y rest =>
      have hgap := hhead y rfl
      have hy := hafter y List.mem_cons_self
      have hnonneg := nanoseconds_nonneg life.interval
      refine ⟨⟨by omega, hafter⟩, ?_⟩
      rw [List.getLast?_cons_cons]
      exact hfirst

theorem Sound.toInt_getRestTime {delay : ℕ} {s : State κ} (h : Sound delay s) {timerId : UInt32}
    {timer : Timer κ} (hfind : s.mgr.timerMap timerId = some timer)
    (hinterval : timer.interval.toNat < 2147483648) (hdelay : delay ≤ 1073741824000000) :
    (getRestTime s.mgr timerId s.now).toInt = (dueTime timer - s.now).tdiv 1000000 := by
  obtain ⟨life, hlife, _, hstarted⟩ := h.listed timerId timer hfind
  have hpast := h.past timerId life hlife
  have hbehind := h.behind timerId timer hfind
  have hprompt := h.prompt
  rw [hstarted] at hpast
  have hrest : nanoseconds timer.interval - (s.now - timer.timer) = dueTime timer - s.now := by
    rw [dueTime]
    omega
  have hle : dueTime timer - s.now ≤ 2147483647 * 1000000 := by
    rw [dueTime, nanoseconds]
    omega
  obtain ⟨hbelow, _, habove⟩ := tdiv_bounds (dueTime timer - s.now)
  simp only [getRestTime, hfind, getRestTick, hrest]
  exact Int32.toInt_ofInt_of_le (by omega) (by omega)

/-- What `GetRestTime` returns is, to the millisecond, the time until the next execution, which
comes no earlier and is late by at most twice the delay, unless the timer is cancelled. -/
theorem getRestTime_foretells (first : UInt32) (now : ℤ) (delay : ℕ)
    (before after : List (Event κ)) (s t : State κ)
    (hok : Always step (Admissible delay) (construct first now) (before ++ after))
    (hbefore : run step (construct first now) before = some s)
    (hafter : run step s after = some t) (timerId : UInt32) (timer : Timer κ)
    (hfind : s.mgr.timerMap timerId = some timer)
    (hinterval : timer.interval.toNat < 2147483648) (hdelay : delay ≤ 1073741824000000) :
    ∃ life newer, s.lives timerId = some life ∧
      t.lives timerId = some { life with executed := newer ++ life.executed } ∧
      (∀ x ∈ newer, s.now + (getRestTime s.mgr timerId s.now).toInt * 1000000 ≤ x) ∧
      (∀ x ∈ newer.getLast?,
        x < s.now + ((getRestTime s.mgr timerId s.now).toInt + 1) * 1000000 + 2 * delay) ∧
      (newer = [] → t.mgr.timerMap timerId ≠ none →
        t.now < s.now + ((getRestTime s.mgr timerId s.now).toInt + 1) * 1000000 +
          2 * delay) ∧
      (t.mgr.timerMap timerId = none → .cancel timerId ∈ after) := by
  obtain ⟨hfirst, hlast⟩ := (always_append hbefore).mp hok
  have hs := sound_of_run hfirst hbefore
  have ht := invariant keep hs hlast hafter
  obtain ⟨life, hlife, hsame, hstarted⟩ := hs.2.listed timerId timer hfind
  obtain ⟨newer, hnewer, hlater⟩ :=
    (continues_of_run hs hlast hafter).lives timerId life hlife
  obtain ⟨hearliest, hlatest⟩ := (ht.2.paced timerId _ hnewer).since
  have hdue : life.started + nanoseconds life.interval = dueTime timer := by
    rw [hstarted, hsame, dueTime]
  rw [hdue] at hearliest hlatest
  obtain ⟨hbelow, hsign, _⟩ := tdiv_bounds (dueTime timer - s.now)
  rw [hs.2.toInt_getRestTime hfind hinterval hdelay]
  refine ⟨life, newer, hlife, hnewer, ?_, ?_, ?_, ?_⟩
  · intro x hx
    have hx' := hearliest x hx
    have hnow := hlater x hx
    omega
  · intro x hx
    have hx' := hlatest x hx
    omega
  · rintro rfl hstill
    obtain ⟨kept, hkept⟩ := Option.ne_none_iff_exists'.mp hstill
    obtain ⟨past, hpast, hinterval', hclock⟩ := ht.2.listed timerId kept hkept
    have hbehind := ht.2.behind timerId kept hkept
    have hprompt := ht.2.prompt
    obtain rfl : past = life := by
      rw [hnewer, List.nil_append] at hpast
      exact (Option.some.inj hpast).symm
    rw [dueTime, ← hclock, ← hinterval', hdue] at hbehind
    omega
  · refine cancel_mem_of_run hafter (fun _ => ?_) ?_
    · simp [hfind]
    · simp [hnewer]

/-- One millisecond after it was added the timer has two to go. -/
theorem getRestTime_foretells_twoTicks :
    ∃ s t, run step (construct 7 0) addedTimer = some s ∧ run step s twoTicks = some t ∧
      getRestTime s.mgr 7 s.now = 2 ∧
      ∃ life newer, s.lives 7 = some life ∧
        t.lives 7 = some { life with executed := newer ++ life.executed } ∧
        ∀ x ∈ newer, s.now + (getRestTime s.mgr 7 s.now).toInt * 1000000 ≤ x := by
  obtain ⟨s, t, hs, ht, hfind, hrest⟩ : ∃ s t, run step (construct 7 0) addedTimer = some s ∧
      run step s twoTicks = some t ∧ s.mgr.timerMap 7 = some ⟨3, (), 0⟩ ∧
      getRestTime s.mgr 7 s.now = 2 := ⟨_, _, rfl, rfl, rfl, rfl⟩
  obtain ⟨life, newer, hlife, hnewer, hafter, _⟩ := getRestTime_foretells 7 0 4000000 addedTimer
    twoTicks s t admissible_twoTicks hs ht 7 ⟨3, (), 0⟩ hfind (by decide) (by decide)
  exact ⟨s, t, hs, ht, hrest, life, newer, hlife, hnewer, hafter⟩

end BlackCat.TimerLoop
