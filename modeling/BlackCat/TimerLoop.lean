import BlackCat.Runs
import BlackCat.TimerMgr
import Mathlib.Data.List.Chain
import Mathlib.Data.List.Nodup

/-!
The timers in time. The manager waits for its deadline timer, scans the table,
goes through the timers it found, calls their callbacks and sets the deadline
timer again. Time passes between any two of these steps, and timers are added
and cancelled by the callbacks and, while the manager waits, by other handlers.
A timer is executed no earlier than its interval after its last start, and late
by no more than the event loop is.
-/
namespace BlackCat.TimerLoop

open Runs Timers

def nanoseconds (interval : UInt32) : ℤ := (interval.toNat : ℤ) * 1000000

def logicTimerInterval : ℤ := 2 * 1000000

/-- Where the manager is: before the expiry of its deadline timer, in the first or the second loop
of `logic_timer_func`, or in the callback of a timer that the second loop called. -/
inductive Phase where
  | waiting (expiry : ℤ)
  | scanning (left found : List UInt32)
  | executing (due : List UInt32)
  | calling (timerId : UInt32) (due : List UInt32)
deriving DecidableEq

/-- The history of a timer: when it was added and when it was executed, the last time first. -/
structure Life where
  interval : UInt32
  added : ℤ
  executed : List ℤ
deriving DecidableEq

/-- The times the clock of a timer was started. -/
def Life.starts (life : Life) : List ℤ := life.executed ++ [life.added]

def Life.started (life : Life) : ℤ := life.executed.headD life.added

def Life.execute (now : ℤ) (life : Life) : Life :=
  { life with executed := now :: life.executed }

/-- The manager, the clock and the phase. `scan` is the time the last scan began, `count` the
number of timers added, and `lives` what became of them. -/
structure State (κ : Type*) where
  mgr : TimerMgr κ
  now : ℤ
  phase : Phase
  scan : ℤ
  count : ℕ
  lives : UInt32 → Option Life

variable {κ : Type*}

/-- The constructor sets the deadline timer. `timer_id_` holds any value. -/
def construct (first : UInt32) (now : ℤ) : State κ :=
  ⟨⟨first, fun _ => none⟩, now, .waiting (now + logicTimerInterval), now, 0, fun _ => none⟩

/-- What the clock of a timer shows. -/
def State.elapsed (s : State κ) (timerId : UInt32) : ℤ :=
  match s.mgr.timerMap timerId with
  | some timer => s.now - timer.timer
  | none => 0

/-- Handlers and callbacks run, and may call `AddTimer` and `Cancel`. -/
def Phase.free : Phase → Bool
  | .waiting _ => true
  | .calling _ _ => true
  | _ => false

inductive Event (κ : Type*) where
  | pass (time : ℕ)
  | addTimer (func : κ) (interval : UInt32)
  | cancel (timerId : UInt32)
  | expire (order : List UInt32)
  | look
  | next
  | back
deriving DecidableEq

/-- `look` is a round of the first loop, with the condition that ends it, and `next` one of the
second; `back` is the return from a callback. A callback whose timer is gone may do nothing but
return, see `Entered`; the step is that of one that goes on all the same. -/
def step (s : State κ) : Event κ → Option (State κ)
  | .pass time => some { s with now := s.now + time }
  | .addTimer func interval =>
    if s.phase.free then
      let added := Timers.addTimer s.mgr func interval s.now
      some { s with
        mgr := added.2
        count := s.count + 1
        lives := Function.update s.lives added.1 (some ⟨interval, s.now, []⟩) }
    else none
  | .cancel timerId =>
    if s.phase.free then some { s with mgr := Timers.cancel s.mgr timerId } else none
  | .expire order =>
    match s.phase with
    | .waiting expiry =>
      if expiry ≤ s.now then some { s with phase := .scanning order [], scan := s.now } else none
    | _ => none
  | .look =>
    match s.phase with
    | .scanning (timerId :: left) found =>
      some { s with
        phase := .scanning left (found ++ timerNeedToExecute s.elapsed s.mgr [timerId]) }
    | .scanning [] found => some { s with phase := .executing found }
    | _ => none
  | .next =>
    match s.phase with
    | .executing (timerId :: due) =>
      match s.mgr.timerMap timerId with
      | none => some { s with phase := .executing due }
      | some timer =>
        some { s with
          mgr := restart s.mgr timerId timer s.now
          phase := .calling timerId due
          lives := Function.update s.lives timerId ((s.lives timerId).map (Life.execute s.now)) }
    | .executing [] => some { s with phase := .waiting (s.now + logicTimerInterval) }
    | _ => none
  | .back =>
    match s.phase with
    | .calling _ due => some { s with phase := .executing due }
    | _ => none

/-- The conditions on a run: a scan begins no later than the given time after the one before, or
after the manager was made, the table is iterated in some order of its timers, and fewer than 2^32
timers are added. -/
def Admissible (delay : ℕ) (s : State κ) : Event κ → Prop
  | .pass time => s.now + time ≤ s.scan + delay
  | .expire order => Iterates s.mgr order
  | .addTimer _ _ => s.count < 4294967296
  | _ => True

/-- A callback runs in the entry of its timer: it adds and cancels timers only as long as that
entry is in the table. -/
def Entered (s : State κ) : Event κ → Prop
  | .addTimer _ _ | .cancel _ =>
    ∀ timerId due, s.phase = .calling timerId due → s.mgr.timerMap timerId ≠ none
  | _ => True

/-- Between two starts of the clock lies the interval, and at most twice the delay of the loop
besides; between two executions lies the interval of the deadline timer as well. -/
structure Life.Paced (delay : ℕ) (life : Life) : Prop where
  apart : life.starts.IsChain fun later earlier =>
    earlier + nanoseconds life.interval ≤ later ∧
      later ≤ earlier + nanoseconds life.interval + 2 * delay
  rested : life.executed.IsChain fun later earlier => earlier + logicTimerInterval ≤ later

theorem Life.head_starts (life : Life) : life.starts.head? = some life.started := by
  cases h : life.executed <;> simp [Life.starts, Life.started, h]

theorem Life.Paced.execute {delay : ℕ} {life : Life} {now : ℤ} (h : life.Paced delay)
    (hdue : life.started + nanoseconds life.interval ≤ now)
    (hlate : now ≤ life.started + nanoseconds life.interval + 2 * delay)
    (hrest : ∀ t ∈ life.executed.head?, t + logicTimerInterval ≤ now) :
    (life.execute now).Paced delay := by
  constructor
  · refine List.isChain_cons.mpr ⟨?_, h.apart⟩
    intro t ht
    change t ∈ life.starts.head? at ht
    rw [life.head_starts] at ht
    cases ht
    exact ⟨hdue, hlate⟩
  · exact List.isChain_cons.mpr ⟨hrest, h.rested⟩

theorem Life.paced_nil (delay : ℕ) (interval : UInt32) (added : ℤ) :
    (⟨interval, added, []⟩ : Life).Paced delay :=
  ⟨List.isChain_singleton _, List.isChain_nil⟩

/-- When the interval of a timer has passed. -/
def dueTime (timer : Timer κ) : ℤ := timer.timer + nanoseconds timer.interval

/-- The timers that a scan has found and that are still to be executed. -/
def Phase.due : Phase → List UInt32
  | .waiting _ => []
  | .scanning _ found => found
  | .executing due => due
  | .calling _ due => due

/-- The timers that are still to be scanned or to be executed. -/
def Phase.pending : Phase → List UInt32
  | .scanning left found => found ++ left
  | phase => phase.due

theorem Phase.mem_pending_of_mem_due {phase : Phase} {timerId : UInt32}
    (h : timerId ∈ phase.due) : timerId ∈ phase.pending := by
  cases phase with
  | scanning left found => exact List.mem_append_left left h
  | waiting expiry => exact h
  | executing due => exact h
  | calling running due => exact h

/-- An event leaves the histories and the counter alone, adds a timer, or executes one. -/
theorem step_lives {s t : State κ} {e : Event κ} (hstep : step s e = some t) :
    s.now ≤ t.now ∧
      ((t.lives = s.lives ∧ t.count = s.count ∧ t.mgr.timerId = s.mgr.timerId) ∨
        (∃ interval,
          t.lives = Function.update s.lives s.mgr.timerId (some ⟨interval, s.now, []⟩) ∧
          t.count = s.count + 1 ∧ t.mgr.timerId = s.mgr.timerId + 1 ∧
          ∃ func, e = .addTimer func interval) ∨
        ∃ timerId,
          t.lives = Function.update s.lives timerId
            ((s.lives timerId).map (Life.execute s.now)) ∧
          t.count = s.count ∧ t.mgr.timerId = s.mgr.timerId) := by
  cases e with
  | pass time =>
    cases hstep
    exact ⟨Int.le_add_of_nonneg_right (Int.natCast_nonneg _), Or.inl ⟨rfl, rfl, rfl⟩⟩
  | addTimer func interval =>
    simp only [step] at hstep
    split at hstep <;> cases hstep
    exact ⟨Int.le_refl _, Or.inr (Or.inl ⟨interval, rfl, rfl, rfl, func, rfl⟩)⟩
  | cancel timerId =>
    simp only [step] at hstep
    split at hstep <;> cases hstep
    exact ⟨Int.le_refl _, Or.inl ⟨rfl, rfl, rfl⟩⟩
  | expire order =>
    simp only [step] at hstep
    split at hstep
    · split at hstep <;> cases hstep
      exact ⟨Int.le_refl _, Or.inl ⟨rfl, rfl, rfl⟩⟩
    · cases hstep
  | look =>
    simp only [step] at hstep
    split at hstep <;> cases hstep <;> exact ⟨Int.le_refl _, Or.inl ⟨rfl, rfl, rfl⟩⟩
  | next =>
    simp only [step] at hstep
    split at hstep
    · next timerId due hphase =>
      split at hstep <;> cases hstep
      · exact ⟨Int.le_refl _, Or.inl ⟨rfl, rfl, rfl⟩⟩
      · exact ⟨Int.le_refl _, Or.inr (Or.inr ⟨timerId, rfl, rfl, rfl⟩)⟩
    · cases hstep
      exact ⟨Int.le_refl _, Or.inl ⟨rfl, rfl, rfl⟩⟩
    · cases hstep
  | back =>
    simp only [step] at hstep
    split at hstep <;> cases hstep
    exact ⟨Int.le_refl _, Or.inl ⟨rfl, rfl, rfl⟩⟩

/-- The counter and the identifiers are the numbers of the timers modulo 2^32. -/
structure Counted (first : UInt32) (s : State κ) : Prop where
  counter : s.mgr.timerId = first + UInt32.ofNat s.count
  numbered : ∀ timerId, s.lives timerId ≠ none → ∃ n < s.count, timerId = first + UInt32.ofNat n

theorem Counted.unused {first : UInt32} {s : State κ} (h : Counted first s)
    (hcount : s.count < 4294967296) : s.lives s.mgr.timerId = none := by
  by_contra hused
  obtain ⟨n, hn, heq⟩ := h.numbered _ hused
  rw [h.counter, UInt32.add_right_inj, ← UInt32.toNat_inj, UInt32.toNat_ofNat',
    UInt32.toNat_ofNat'] at heq
  omega

theorem Counted.keep {first : UInt32} {s t : State κ} (h : Counted first s) {e : Event κ}
    (hstep : step s e = some t) : Counted first t := by
  have hnumbered : ∀ timerId, s.lives timerId ≠ none →
      ∃ n < s.count + 1, timerId = first + UInt32.ofNat n := by
    intro timerId hused
    obtain ⟨n, hn, heq⟩ := h.numbered timerId hused
    exact ⟨n, Nat.lt_succ_of_lt hn, heq⟩
  rcases (step_lives hstep).2 with
    ⟨hlives, hcount, hid⟩ | ⟨interval, hlives, hcount, hid, _⟩ | ⟨timerId, hlives, hcount, hid⟩
  · exact ⟨by rw [hid, hcount, h.counter], by rw [hlives, hcount]; exact h.numbered⟩
  · refine ⟨?_, ?_⟩
    · rw [hid, hcount, h.counter, UInt32.ofNat_add, UInt32.add_assoc]
      rfl
    · intro other hused
      rw [hcount]
      by_cases hother : other = s.mgr.timerId
      · exact ⟨s.count, Nat.lt_succ_self _, hother.trans h.counter⟩
      · rw [hlives, Function.update_of_ne hother] at hused
        exact hnumbered other hused
  · refine ⟨by rw [hid, hcount, h.counter], ?_⟩
    intro other hused
    rw [hcount]
    refine h.numbered other fun hnone => hused ?_
    by_cases hother : other = timerId
    · rw [hlives, hother, Function.update_self, ← hother, hnone]
      rfl
    · rw [hlives, Function.update_of_ne hother, hnone]

/-- What holds of the table, the histories and the phase. A timer that is pending may be as late
as the scan, one that is not was not due when the scan began. -/
structure Sound (delay : ℕ) (s : State κ) : Prop where
  listed : ∀ timerId timer, s.mgr.timerMap timerId = some timer →
    ∃ life, s.lives timerId = some life ∧ life.interval = timer.interval ∧
      life.started = timer.timer
  known : ∀ timerId ∈ s.phase.pending, s.lives timerId ≠ none
  nodup : s.phase.pending.Nodup
  begun : s.scan ≤ s.now
  prompt : s.now ≤ s.scan + delay
  past : ∀ timerId life, s.lives timerId = some life → life.started ≤ s.now
  due : ∀ timerId ∈ s.phase.due, ∀ timer, s.mgr.timerMap timerId = some timer →
    dueTime timer ≤ s.now
  behind : ∀ timerId timer, s.mgr.timerMap timerId = some timer →
    s.scan ≤ dueTime timer + delay
  caught : ∀ timerId timer, s.mgr.timerMap timerId = some timer → timerId ∉ s.phase.pending →
    s.scan ≤ dueTime timer
  resting : ∀ expiry, s.phase = .waiting expiry → ∀ timerId life, s.lives timerId = some life →
    ∀ t ∈ life.executed.head?, t + logicTimerInterval ≤ expiry
  rested : ∀ timerId ∈ s.phase.pending, ∀ life, s.lives timerId = some life →
    ∀ t ∈ life.executed.head?, t + logicTimerInterval ≤ s.scan
  paced : ∀ timerId life, s.lives timerId = some life → life.Paced delay

theorem nanoseconds_nonneg (interval : UInt32) : 0 ≤ nanoseconds interval :=
  Int.mul_nonneg (Int.natCast_nonneg _) (by decide)

theorem Life.started_of_head {life : Life} {t : ℤ} (h : t ∈ life.executed.head?) :
    life.started = t := by
  rw [Life.started, List.headD_eq_head?_getD, Option.mem_def.mp h]
  rfl

section Steps

variable {delay : ℕ} {s : State κ}

theorem sound_construct (delay : ℕ) (first : UInt32) (now : ℤ) :
    Sound delay (construct first now : State κ) where
  listed := by simp [construct]
  known := by simp [construct, Phase.pending, Phase.due]
  nodup := List.nodup_nil
  begun := Int.le_refl _
  prompt := Int.le_add_of_nonneg_right (Int.natCast_nonneg _)
  past := by simp [construct]
  due := by simp [construct]
  behind := by simp [construct]
  caught := by simp [construct]
  resting := by simp [construct]
  rested := by simp [construct]
  paced := by simp [construct]

theorem Sound.pass (h : Sound delay s) (time : ℕ) (hok : s.now + time ≤ s.scan + delay) :
    Sound delay { s with now := s.now + time } := by
  have hlater : s.now ≤ s.now + time := Int.le_add_of_nonneg_right (Int.natCast_nonneg _)
  exact { h with
    begun := Int.le_trans h.begun hlater
    prompt := hok
    past := fun timerId life hlife => Int.le_trans (h.past timerId life hlife) hlater
    due := fun timerId hmem timer hfind => Int.le_trans (h.due timerId hmem timer hfind) hlater }

theorem Sound.rephase (h : Sound delay s) (phase : Phase)
    (hsub : phase.pending.Sublist s.phase.pending)
    (hdue : ∀ timerId ∈ phase.due, ∀ timer, s.mgr.timerMap timerId = some timer →
      dueTime timer ≤ s.now)
    (hdropped : ∀ timerId ∈ s.phase.pending, timerId ∉ phase.pending →
      ∀ timer, s.mgr.timerMap timerId = some timer → s.scan ≤ dueTime timer)
    (hwait : ∀ expiry, phase = .waiting expiry → s.now + logicTimerInterval ≤ expiry) :
    Sound delay { s with phase := phase } := by
  refine { h with
    known := fun timerId hmem => h.known timerId (hsub.subset hmem)
    nodup := hsub.nodup h.nodup
    due := hdue
    caught := ?_
    resting := ?_
    rested := fun timerId hmem => h.rested timerId (hsub.subset hmem) }
  · intro timerId timer hfind hnot
    by_cases hmem : timerId ∈ s.phase.pending
    · exact hdropped timerId hmem hnot timer hfind
    · exact h.caught timerId timer hfind hmem
  · intro expiry hphase timerId life hlife t ht
    have hpast := h.past timerId life hlife
    rw [life.started_of_head ht] at hpast
    have hexpiry := hwait expiry hphase
    omega

theorem eq_or_kept_of_update {β : Type*} {f : UInt32 → Option β} {k x : UInt32} {v y : β}
    (h : Function.update f k (some v) x = some y) : (x = k ∧ y = v) ∨ (x ≠ k ∧ f x = some y) := by
  by_cases hx : x = k
  · subst hx
    rw [Function.update_self] at h
    exact Or.inl ⟨rfl, (Option.some.inj h).symm⟩
  · rw [Function.update_of_ne hx] at h
    exact Or.inr ⟨hx, h⟩

/-- A timer whose clock is started now, and which is not to be executed, is put into the table and
into the histories. -/
theorem Sound.start (h : Sound delay s) {timerId : UInt32} {timer : Timer κ} {life : Life}
    {mgr : TimerMgr κ} (phase : Phase) (count : ℕ)
    (hmgr : mgr.timerMap = Function.update s.mgr.timerMap timerId (some timer))
    (hinterval : life.interval = timer.interval) (hstarted : life.started = s.now)
    (hclock : timer.timer = s.now) (hpaced : life.Paced delay)
    (hsub : phase.pending.Sublist s.phase.pending) (hnot : timerId ∉ phase.pending)
    (hrest : s.phase.pending ⊆ timerId :: phase.pending) (hdue : phase.due ⊆ s.phase.due)
    (hwait : ∀ expiry, phase = .waiting expiry →
      s.phase = .waiting expiry ∧ life.executed = []) :
    Sound delay { s with
      mgr := mgr
      phase := phase
      count := count
      lives := Function.update s.lives timerId (some life) } := by
  have htable : ∀ {other kept}, mgr.timerMap other = some kept →
      (other = timerId ∧ kept = timer) ∨ (other ≠ timerId ∧ s.mgr.timerMap other = some kept) := by
    intro other kept hkept
    rw [hmgr] at hkept
    exact eq_or_kept_of_update hkept
  have hother : ∀ other ∈ phase.pending, other ≠ timerId := by
    rintro other hin rfl
    exact hnot hin
  have hnow : s.scan ≤ dueTime timer := by
    have hbegun := h.begun
    have hnonneg := nanoseconds_nonneg timer.interval
    rw [dueTime, hclock]
    omega
  refine { h with
    listed := ?_, known := ?_, nodup := hsub.nodup h.nodup, past := ?_, due := ?_, behind := ?_
    caught := ?_, resting := ?_, rested := ?_, paced := ?_ }
  · intro other kept hkept
    rcases htable hkept with ⟨rfl, rfl⟩ | ⟨hid, hbefore⟩
    · exact ⟨life, Function.update_self _ _ _, hinterval, hstarted.trans hclock.symm⟩
    · obtain ⟨past, hpast, hsame⟩ := h.listed other kept hbefore
      exact ⟨past, (Function.update_of_ne hid _ _).trans hpast, hsame⟩
  · intro other hin
    simp only [Function.update_of_ne (hother other hin)]
    exact h.known other (hsub.subset hin)
  · intro other past hpast
    rcases eq_or_kept_of_update hpast with ⟨_, rfl⟩ | ⟨_, hbefore⟩
    · exact Int.le_of_eq hstarted
    · exact h.past other past hbefore
  · intro other hin kept hkept
    rcases htable hkept with ⟨hid, _⟩ | ⟨_, hbefore⟩
    · exact absurd hid (hother other (Phase.mem_pending_of_mem_due hin))
    · exact h.due other (hdue hin) kept hbefore
  · intro other kept hkept
    rcases htable hkept with ⟨_, rfl⟩ | ⟨_, hbefore⟩
    · exact Int.le_trans hnow (Int.le_add_of_nonneg_right (Int.natCast_nonneg _))
    · exact h.behind other kept hbefore
  · intro other kept hkept hout
    rcases htable hkept with ⟨_, rfl⟩ | ⟨hid, hbefore⟩
    · exact hnow
    · refine h.caught other kept hbefore fun hin => ?_
      rcases List.mem_cons.mp (hrest hin) with heq | hstill
      · exact hid heq
      · exact hout hstill
  · intro expiry hphase other past hpast
    obtain ⟨hbefore, hnone⟩ := hwait expiry hphase
    rcases eq_or_kept_of_update hpast with ⟨_, rfl⟩ | ⟨_, hkept⟩
    · simp [hnone]
    · exact h.resting expiry hbefore other past hkept
  · intro other hin past hpast
    rcases eq_or_kept_of_update hpast with ⟨hid, _⟩ | ⟨_, hbefore⟩
    · exact absurd hid (hother other hin)
    · exact h.rested other (hsub.subset hin) past hbefore
  · intro other past hpast
    rcases eq_or_kept_of_update hpast with ⟨_, rfl⟩ | ⟨_, hbefore⟩
    · exact hpaced
    · exact h.paced other past hbefore

theorem Sound.addTimer (h : Sound delay s) (hunused : s.lives s.mgr.timerId = none) (func : κ)
    (interval : UInt32) :
    Sound delay { s with
      mgr := (Timers.addTimer s.mgr func interval s.now).2
      count := s.count + 1
      lives := Function.update s.lives s.mgr.timerId (some ⟨interval, s.now, []⟩) } := by
  refine h.start s.phase (s.count + 1) rfl rfl rfl rfl
    (Life.paced_nil delay interval s.now) (List.Sublist.refl _) ?_ (List.subset_cons_self _ _)
    (List.Subset.refl _) (fun expiry hphase => ⟨hphase, rfl⟩)
  exact fun hin => h.known _ hin hunused

theorem find_of_cancel {mgr : TimerMgr κ} {timerId other : UInt32} {timer : Timer κ}
    (h : (Timers.cancel mgr timerId).timerMap other = some timer) :
    mgr.timerMap other = some timer := by
  by_cases hid : other = timerId
  · simp [Timers.cancel, hid] at h
  · simpa only [Timers.cancel, Function.update_of_ne hid] using h

theorem Sound.cancel (h : Sound delay s) (timerId : UInt32) :
    Sound delay { s with mgr := Timers.cancel s.mgr timerId } :=
  { h with
    listed := fun other timer hfind => h.listed other timer (find_of_cancel hfind)
    due := fun other hmem timer hfind => h.due other hmem timer (find_of_cancel hfind)
    behind := fun other timer hfind => h.behind other timer (find_of_cancel hfind)
    caught := fun other timer hfind => h.caught other timer (find_of_cancel hfind) }

theorem Sound.expire (h : Sound delay s) {expiry : ℤ} (hphase : s.phase = .waiting expiry)
    (hexpiry : expiry ≤ s.now) (order : List UInt32) (horder : Iterates s.mgr order) :
    Sound delay { s with phase := .scanning order [], scan := s.now } := by
  have hcaught : ∀ timerId timer, s.mgr.timerMap timerId = some timer →
      s.scan ≤ dueTime timer := by
    intro timerId timer hfind
    refine h.caught timerId timer hfind ?_
    rw [hphase]
    exact List.not_mem_nil
  refine { h with
    known := ?_
    nodup := horder.nodup
    begun := Int.le_refl _
    prompt := Int.le_add_of_nonneg_right (Int.natCast_nonneg _)
    due := fun timerId hmem => absurd hmem List.not_mem_nil
    behind := ?_
    caught := ?_
    resting := fun expiry hwaiting => by cases hwaiting
    rested := ?_ }
  · intro timerId hmem
    obtain ⟨timer, hfind⟩ := Option.ne_none_iff_exists'.mp ((horder.mem_iff timerId).mp hmem)
    obtain ⟨life, hlife, _⟩ := h.listed timerId timer hfind
    exact Option.ne_none_iff_exists'.mpr ⟨life, hlife⟩
  · intro timerId timer hfind
    have hscan := hcaught timerId timer hfind
    have hprompt := h.prompt
    change s.now ≤ dueTime timer + delay
    omega
  · intro timerId timer hfind hnot
    exact absurd ((horder.mem_iff timerId).mpr (Option.ne_none_iff_exists'.mpr ⟨timer, hfind⟩)) hnot
  · intro timerId _ life hlife t ht
    exact Int.le_trans (h.resting expiry hphase timerId life hlife t ht) hexpiry

theorem Sound.look (h : Sound delay s) {timerId : UInt32} {left found : List UInt32}
    (hphase : s.phase = .scanning (timerId :: left) found) :
    Sound delay { s with
      phase := .scanning left (found ++ timerNeedToExecute s.elapsed s.mgr [timerId]) } := by
  have hfound : ∀ other ∈ found, ∀ timer, s.mgr.timerMap other = some timer →
      dueTime timer ≤ s.now := by
    have hdue := h.due
    rw [hphase] at hdue
    exact hdue
  have hscan : ∀ timer, s.mgr.timerMap timerId = some timer →
      (timerId ∈ timerNeedToExecute s.elapsed s.mgr [timerId] ↔ dueTime timer ≤ s.now) := by
    intro timer hfind
    simp only [timerNeedToExecute, State.elapsed, hfind, List.mem_filter, List.mem_singleton,
      true_and, decide_eq_true_eq, dueTime, nanoseconds]
    omega
  have hsub : (timerNeedToExecute s.elapsed s.mgr [timerId]).Sublist [timerId] :=
    List.filter_sublist
  refine h.rephase _ ?_ ?_ ?_ (fun expiry hwaiting => by cases hwaiting)
  · rw [hphase]
    simp only [Phase.pending, List.append_assoc]
    exact (hsub.append (List.Sublist.refl left)).append_left found
  · intro other hmem timer hfind
    rcases List.mem_append.mp hmem with hin | hin
    · exact hfound other hin timer hfind
    · obtain rfl := List.mem_singleton.mp (hsub.subset hin)
      exact (hscan timer hfind).mp hin
  · intro other hmem hnot timer hfind
    simp only [hphase, Phase.pending, List.mem_append, List.mem_cons, not_or] at hmem hnot
    obtain rfl : other = timerId := by
      rcases hmem with hin | hid | hin
      · exact absurd hin hnot.1.1
      · exact hid
      · exact absurd hin hnot.2
    have hnext := mt (hscan timer hfind).mpr hnot.1.2
    have hbegun := h.begun
    omega

theorem Sound.execute (h : Sound delay s) {timerId : UInt32} {due : List UInt32}
    (hphase : s.phase = .executing (timerId :: due)) {timer : Timer κ}
    (hfind : s.mgr.timerMap timerId = some timer) :
    Sound delay { s with
      mgr := restart s.mgr timerId timer s.now
      phase := .calling timerId due
      lives := Function.update s.lives timerId
        ((s.lives timerId).map (Life.execute s.now)) } := by
  obtain ⟨life, hlife, hinterval, hstarted⟩ := h.listed timerId timer hfind
  have hpending : s.phase.pending = timerId :: due := by
    rw [hphase]
    rfl
  have hmem : timerId ∈ s.phase.pending := hpending ▸ List.mem_cons_self
  have hdue : s.phase.due = timerId :: due := by
    rw [hphase]
    rfl
  have hpaced : (life.execute s.now).Paced delay := by
    have hpassed := h.due timerId (hdue ▸ List.mem_cons_self) timer hfind
    have hbehind := h.behind timerId timer hfind
    have hprompt := h.prompt
    simp only [dueTime] at hpassed hbehind
    refine (h.paced timerId life hlife).execute ?_ ?_ ?_
    · rw [hstarted, hinterval]
      exact hpassed
    · rw [hstarted, hinterval]
      omega
    · intro t ht
      exact Int.le_trans (h.rested timerId hmem life hlife t ht) h.begun
  rw [hlife]
  refine h.start (.calling timerId due) s.count rfl hinterval rfl rfl hpaced ?_ ?_ ?_ ?_ ?_
  · exact hpending ▸ List.sublist_cons_self timerId due
  · exact (List.nodup_cons.mp (hpending ▸ h.nodup)).1
  · exact hpending ▸ List.Subset.refl _
  · exact hdue ▸ List.subset_cons_self timerId due
  · intro expiry hwaiting
    cases hwaiting

theorem Sound.keep {first : UInt32} (hcount : Counted first s) (h : Sound delay s) {e : Event κ}
    {t : State κ} (hok : Admissible delay s e) (hstep : step s e = some t) : Sound delay t := by
  cases e with
  | pass time =>
    cases hstep
    exact h.pass time hok
  | addTimer func interval =>
    simp only [step] at hstep
    split at hstep <;> cases hstep
    exact h.addTimer (hcount.unused hok) func interval
  | cancel timerId =>
    simp only [step] at hstep
    split at hstep <;> cases hstep
    exact h.cancel timerId
  | expire order =>
    simp only [step] at hstep
    split at hstep
    · next expiry hphase =>
      split at hstep <;> cases hstep
      exact h.expire hphase ‹_› order hok
    · cases hstep
  | look =>
    simp only [step] at hstep
    split at hstep
    · next timerId left found hphase =>
      cases hstep
      exact h.look hphase
    · next found hphase =>
      cases hstep
      have hdue := h.due
      rw [hphase] at hdue
      refine h.rephase (.executing found) ?_ hdue ?_ (fun expiry hwaiting => by cases hwaiting)
      · rw [hphase]
        simp only [Phase.pending, Phase.due, List.append_nil, List.Sublist.refl]
      · intro timerId hmem hnot
        rw [hphase] at hmem
        simp only [Phase.pending, Phase.due, List.append_nil] at hmem hnot
        exact absurd hmem hnot
    · cases hstep
  | next =>
    simp only [step] at hstep
    split at hstep
    · next timerId due hphase =>
      split at hstep
      · next hnone =>
        cases hstep
        have hdue := h.due
        rw [hphase] at hdue
        refine h.rephase (.executing due) ?_ ?_ ?_ (fun expiry hwaiting => by cases hwaiting)
        · rw [hphase]
          exact List.sublist_cons_self timerId due
        · exact fun other hmem => hdue other (List.mem_cons_of_mem timerId hmem)
        · intro other hmem hnot timer hfind
          rw [hphase] at hmem
          rcases List.mem_cons.mp hmem with rfl | hin
          · rw [hnone] at hfind
            cases hfind
          · exact absurd hin hnot
      · next timer hfind =>
        cases hstep
        exact h.execute hphase hfind
    · next hphase =>
      cases hstep
      refine h.rephase (.waiting (s.now + logicTimerInterval)) (List.nil_sublist _) ?_ ?_ ?_
      · exact fun timerId hmem => absurd hmem List.not_mem_nil
      · intro timerId hmem
        rw [hphase] at hmem
        exact absurd hmem List.not_mem_nil
      · intro expiry hwaiting
        cases hwaiting
        exact Int.le_refl _
    · cases hstep
  | back =>
    simp only [step] at hstep
    split at hstep
    · next due hphase =>
      cases hstep
      have hdue := h.due
      rw [hphase] at hdue
      refine h.rephase (.executing due) ?_ hdue ?_ (fun expiry hwaiting => by cases hwaiting)
      · rw [hphase]
        exact List.Sublist.refl _
      · intro timerId hmem hnot
        rw [hphase] at hmem
        exact absurd hmem hnot
    · cases hstep

end Steps

theorem counted_construct (first : UInt32) (now : ℤ) :
    Counted first (construct first now : State κ) where
  counter := by simp [construct]
  numbered := by simp [construct]

theorem keep {first : UInt32} {delay : ℕ} (s : State κ) (e : Event κ) (t : State κ)
    (h : Counted first s ∧ Sound delay s) (hok : Admissible delay s e)
    (hstep : step s e = some t) : Counted first t ∧ Sound delay t :=
  ⟨h.1.keep hstep, h.2.keep h.1 hok hstep⟩

theorem sound_of_run {first : UInt32} {now : ℤ} {delay : ℕ} {events : List (Event κ)}
    {s : State κ} (hok : Always step (Admissible delay) (construct first now) events)
    (hrun : run step (construct first now) events = some s) :
    Counted first s ∧ Sound delay s :=
  invariant keep ⟨counted_construct first now, sound_construct delay first now⟩ hok hrun

end BlackCat.TimerLoop
