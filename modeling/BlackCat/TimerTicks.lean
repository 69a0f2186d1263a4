import BlackCat.TimerLoop

/-!
A tick in time is a tick of the table. Between the expiry of the deadline timer
and the end of the second loop time passes as it likes; what the clocks show at
the scan, when they are started again and what the callbacks do are the data
that a tick of the manager takes, and the executions are in the histories. A
callback acts as long as its timer is in the table: after that the tick of the
manager is undefined, while the loop goes on.
-/
namespace BlackCat.TimerLoop

open Runs Timers

variable {κ : Type*}

section Tick

variable (behave behave' : κ → UInt32 → TimerMgr κ → List (Action κ))
  (start start' elapsed elapsed' : UInt32 → ℤ)

theorem executeTimers_congr (ids : List UInt32) (mgr : TimerMgr κ)
    (hstart : ∀ timerId ∈ ids, start timerId = start' timerId)
    (hbehave : ∀ timerId ∈ ids, ∀ func m, behave func timerId m = behave' func timerId m) :
    executeTimers behave start mgr ids = executeTimers behave' start' mgr ids := by
  induction ids generalizing mgr with
  | nil => rfl
  | cons timerId rest ih =>
    rw [List.forall_mem_cons] at hstart hbehave
    have hrest := fun m => ih m hstart.2 hbehave.2
    have hexecute : ∀ timer, execute behave start mgr timerId timer =
        execute behave' start' mgr timerId timer := by
      intro timer
      simp only [execute, hstart.1, hbehave.1]
    simp only [executeTimers, hrest, hexecute]

theorem timerNeedToExecute_congr (mgr : TimerMgr κ) (order : List UInt32)
    (h : ∀ timerId ∈ order, elapsed timerId = elapsed' timerId) :
    timerNeedToExecute elapsed mgr order = timerNeedToExecute elapsed' mgr order := by
  refine List.filter_congr fun timerId hmem => ?_
  rw [h timerId hmem]

/-- What is left of a tick, the callback that is running having some actions left. -/
def outcome (actions : List (Action κ)) (s : State κ) :
    Option (TimerMgr κ) × List (Execution κ) :=
  match s.phase with
  | .waiting _ => (some s.mgr, [])
  | .scanning left found =>
    executeTimers behave start s.mgr (found ++ timerNeedToExecute elapsed s.mgr left)
  | .executing due => executeTimers behave start s.mgr due
  | .calling timerId due =>
    match (perform timerId s.mgr actions).1 with
    | none => (none, [])
    | some next => executeTimers behave start next due

/-- The executions are put down in the histories, and nothing else is. -/
def Recorded (log : List (Execution κ)) (s t : State κ) : Prop :=
  ∀ timerId life, s.lives timerId = some life →
    t.lives timerId =
      some (if timerId ∈ log.map Execution.timerId then life.execute (start timerId) else life)

/-- The rest of a tick of the manager leads to a state of the loop. A callback whose timer is gone
has no actions left. -/
structure Completes (actions : List (Action κ)) (s t : State κ) : Prop where
  table : (outcome behave start elapsed actions s).1 = some t.mgr
  recorded : Recorded start (outcome behave start elapsed actions s).2 s t
  ended : ∀ timerId due, s.phase = .calling timerId due → s.mgr.timerMap timerId = none →
    actions = []

end Tick

theorem waiting_of_run {s t : State κ} {events : List (Event κ)} {expiry : ℤ}
    (hphase : s.phase = .waiting expiry) (hno : ∀ order, Event.expire order ∉ events)
    (hrun : run step s events = some t) : t.phase = .waiting expiry := by
  induction events generalizing s with
  | nil =>
    cases hrun
    exact hphase
  | cons e rest ih =>
    obtain ⟨u, hstep, hrest⟩ := exists_of_run_cons hrun
    refine ih ?_ (fun order hmem => hno order (List.mem_cons_of_mem e hmem)) hrest
    cases e with
    | expire order => exact absurd List.mem_cons_self (hno order)
    | pass time =>
      cases hstep
      exact hphase
    | addTimer func interval =>
      simp only [step, hphase, Phase.free, if_true] at hstep
      cases hstep
      rfl
    | cancel timerId =>
      simp only [step, hphase, Phase.free, if_true] at hstep
      cases hstep
      rfl
    | look => simp [step, hphase] at hstep
    | next => simp [step, hphase] at hstep
    | back => simp [step, hphase] at hstep

theorem calling_of_free {phase : Phase} (h : phase.free = true)
    (hbusy : ∀ expiry, phase ≠ .waiting expiry) :
    ∃ running due, phase = .calling running due := by
  cases phase with
  | waiting expiry => exact absurd rfl (hbusy expiry)
  | calling running due => exact ⟨running, due, rfl⟩
  | scanning left found => cases h
  | executing due => cases h

theorem calling_of_step {s u : State κ} {e : Event κ}
    (he : (∃ func interval, e = .addTimer func interval) ∨ ∃ timerId, e = .cancel timerId)
    (hstep : step s e = some u) (hbusy : ∀ expiry, u.phase ≠ .waiting expiry) :
    ∃ running due, s.phase = .calling running due := by
  rcases he with ⟨func, interval, rfl⟩ | ⟨timerId, rfl⟩
  all_goals
    simp only [step] at hstep
    split at hstep <;> cases hstep
    exact calling_of_free ‹_› hbusy

theorem perform_cons {timerId : UInt32} {mgr : TimerMgr κ} {action : Action κ}
    {rest : List (Action κ)} (h : action.destroys mgr timerId = true → rest = []) :
    (perform timerId mgr (action :: rest)).1 = (perform timerId (act mgr action).1 rest).1 := by
  have hgo : (action.destroys mgr timerId && !rest.isEmpty) = false := by
    cases hgone : action.destroys mgr timerId with
    | false => rfl
    | true => simp [h hgone]
  simp only [perform, hgo, Bool.false_eq_true, if_false]

section Events

variable {behave : κ → UInt32 → TimerMgr κ → List (Action κ)} {start elapsed : UInt32 → ℤ}
  {actions : List (Action κ)} {s t u : State κ}

theorem Completes.silent {behave' : κ → UInt32 → TimerMgr κ → List (Action κ)}
    {elapsed' : UInt32 → ℤ} {actions' : List (Action κ)}
    (h : Completes behave start elapsed actions u t)
    (houtcome : outcome behave' start elapsed' actions' s =
      outcome behave start elapsed actions u) (hlives : u.lives = s.lives)
    (hended : ∀ running due, s.phase = .calling running due → actions' = []) :
    Completes behave' start elapsed' actions' s t := by
  refine ⟨houtcome ▸ h.table, ?_, fun running due hphase _ => hended running due hphase⟩
  intro timerId life hlife
  rw [houtcome]
  exact h.recorded timerId life (hlives ▸ hlife)

theorem Completes.action {running : UInt32} {due : List UInt32} {action : Action κ}
    (h : Completes behave start elapsed actions u t) (hphase : s.phase = .calling running due)
    (hnext : u.phase = .calling running due) (hmgr : (act s.mgr action).1 = u.mgr)
    (hlives : ∀ timerId life, s.lives timerId = some life → u.lives timerId = some life)
    (hin : s.mgr.timerMap running ≠ none)
    (hlast : action.destroys s.mgr running = true → actions = []) :
    Completes behave start elapsed (action :: actions) s t := by
  have houtcome : outcome behave start elapsed (action :: actions) s =
      outcome behave start elapsed actions u := by
    simp only [outcome, hphase, hnext, perform_cons hlast, hmgr]
  refine ⟨houtcome ▸ h.table, ?_, ?_⟩
  · intro timerId life hlife
    rw [houtcome]
    exact h.recorded timerId life (hlives timerId life hlife)
  · intro timerId due' hcalling hnone
    rw [hphase] at hcalling
    cases hcalling
    exact absurd hnone hin

theorem Completes.addTimer {func : κ} {interval running : UInt32} {due : List UInt32}
    (h : Completes behave start elapsed actions u t) (hphase : s.phase = .calling running due)
    (hunused : s.lives s.mgr.timerId = none) (hlisted : s.lives running ≠ none)
    (hin : s.mgr.timerMap running ≠ none)
    (hstep : step s (.addTimer func interval) = some u) :
    Completes behave start elapsed (.addTimer func interval s.now :: actions) s t := by
  simp only [step, hphase, Phase.free, if_true] at hstep
  cases hstep
  refine h.action hphase rfl rfl ?_ hin ?_
  · intro timerId life hlife
    refine (Function.update_of_ne ?_ _ _).trans hlife
    rintro rfl
    cases hunused.symm.trans hlife
  · intro hgone
    simp only [Action.destroys, decide_eq_true_eq] at hgone
    exact absurd (hgone ▸ hunused) hlisted

theorem Completes.cancel {timerId running : UInt32} {due : List UInt32}
    (h : Completes behave start elapsed actions u t) (hphase : s.phase = .calling running due)
    (hin : s.mgr.timerMap running ≠ none) (hstep : step s (.cancel timerId) = some u) :
    Completes behave start elapsed (.cancel timerId :: actions) s t := by
  simp only [step, hphase, Phase.free, if_true] at hstep
  cases hstep
  refine h.action hphase rfl rfl (fun _ _ hlife => hlife) hin ?_
  intro hgone
  simp only [Action.destroys, decide_eq_true_eq] at hgone
  exact h.ended running due rfl (hgone ▸ Function.update_self _ _ _)

theorem Completes.pass {time : ℕ} (h : Completes behave start elapsed actions u t)
    (hstep : step s (.pass time) = some u) : Completes behave start elapsed actions s t := by
  cases hstep
  exact ⟨h.table, h.recorded, h.ended⟩

theorem Completes.back (h : Completes behave start elapsed actions u t)
    (hstep : step s .back = some u) : Completes behave start elapsed [] s t := by
  simp only [step] at hstep
  split at hstep
  · next running due hphase =>
    cases hstep
    exact h.silent (by simp only [outcome, hphase, perform]) rfl (fun _ _ _ => rfl)
  · cases hstep

theorem timerNeedToExecute_update {timerId : UInt32} {left : List UInt32} (reading : ℤ)
    (mgr : TimerMgr κ) (hout : timerId ∉ left) :
    timerNeedToExecute (Function.update elapsed timerId reading) mgr (timerId :: left) =
      timerNeedToExecute (fun _ => reading) mgr [timerId] ++
        timerNeedToExecute elapsed mgr left := by
  rw [← List.singleton_append, timerNeedToExecute, List.filter_append]
  congr 1
  · refine timerNeedToExecute_congr _ _ mgr [timerId] fun other hmem => ?_
    rw [List.mem_singleton.mp hmem, Function.update_self]
  · refine timerNeedToExecute_congr _ _ mgr left fun other hmem => ?_
    refine Function.update_of_ne ?_ _ _
    rintro rfl
    exact hout hmem

theorem Completes.look {delay : ℕ} (h : Completes behave start elapsed actions u t)
    (hs : Sound delay s) (hstep : step s .look = some u) :
    ∃ elapsed', Completes behave start elapsed' actions s t := by
  have hnodup := hs.nodup
  simp only [step] at hstep
  split at hstep
  · next timerId left found hphase =>
    cases hstep
    simp only [hphase, Phase.pending] at hnodup
    have hout : timerId ∉ left := (List.nodup_cons.mp (List.nodup_append.mp hnodup).2.1).1
    have hread : timerNeedToExecute (fun _ => s.elapsed timerId) s.mgr [timerId] =
        timerNeedToExecute s.elapsed s.mgr [timerId] := by
      refine timerNeedToExecute_congr _ _ s.mgr [timerId] fun other hmem => ?_
      rw [List.mem_singleton.mp hmem]
    refine ⟨Function.update elapsed timerId (s.elapsed timerId), h.silent ?_ rfl (by simp [hphase])⟩
    simp only [outcome, hphase, timerNeedToExecute_update _ s.mgr hout, hread, List.append_assoc]
  · next found hphase =>
    cases hstep
    refine ⟨elapsed, h.silent ?_ rfl (by simp [hphase])⟩
    simp only [outcome, hphase, timerNeedToExecute, List.filter_nil, List.append_nil]
  · cases hstep

theorem exists_executeTimers {timerId : UInt32} {timer : Timer κ} {due : List UInt32}
    (hfind : s.mgr.timerMap timerId = some timer) (hout : timerId ∉ due)
    (h : Completes behave start elapsed actions
      { s with
        mgr := restart s.mgr timerId timer s.now
        phase := .calling timerId due
        lives := Function.update s.lives timerId
          ((s.lives timerId).map (Life.execute s.now)) } t) :
    ∃ behave' start', (executeTimers behave' start' s.mgr (timerId :: due)).1 = some t.mgr ∧
      Recorded start' (executeTimers behave' start' s.mgr (timerId :: due)).2 s t := by
  have hother : ∀ other ∈ due, other ≠ timerId := by
    rintro other hin rfl
    exact hout hin
  obtain ⟨next, hnext⟩ : ∃ next,
      (perform timerId (restart s.mgr timerId timer s.now) actions).1 = some next := by
    refine Option.ne_none_iff_exists'.mp fun hnone => ?_
    have htable := h.table
    simp only [outcome, hnone] at htable
    cases htable
  have htable := h.table
  have hrecorded := h.recorded
  simp only [outcome, hnext] at htable hrecorded
  refine ⟨fun func other mgr => if other = timerId then actions else behave func other mgr,
    Function.update start timerId s.now, ?_⟩
  have hdone : (execute (fun func other mgr => if other = timerId then actions
      else behave func other mgr) (Function.update start timerId s.now) s.mgr timerId timer).1 =
        some next := by
    simp only [execute, Function.update_self, if_true, hnext]
  rw [executeTimers_of_some _ _ s.mgr next timerId due timer hfind hdone,
    executeTimers_congr _ behave _ start due next
      (fun other hin => Function.update_of_ne (hother other hin) _ _)
      (fun other hin func mgr => if_neg (hother other hin))]
  refine ⟨htable, ?_⟩
  intro other life hlife
  simp only [execute, List.map_cons, List.mem_cons]
  by_cases hid : other = timerId
  · subst hid
    have hlater := hrecorded other (life.execute s.now) (by
      simp only [Function.update_self, hlife, Option.map_some])
    rw [if_neg] at hlater
    · simp only [hlater, true_or, if_true, Function.update_self]
    · intro hin
      obtain ⟨x, hx, rfl⟩ := List.mem_map.mp hin
      exact hout (executed_mem behave start due next x hx)
  · have hlater := hrecorded other life (by simp only [Function.update_of_ne hid, hlife])
    simp only [hlater, hid, false_or, Function.update_of_ne hid]

theorem Completes.next {delay : ℕ} (h : Completes behave start elapsed actions u t)
    (hs : Sound delay s) (hu : ∀ expiry, u.phase ≠ .waiting expiry)
    (hstep : step s .next = some u) :
    ∃ behave' start', Completes behave' start' elapsed actions s t := by
  have hnodup := hs.nodup
  simp only [step] at hstep
  split at hstep
  · next timerId due hphase =>
    split at hstep
    · next hnone =>
      cases hstep
      refine ⟨behave, start, h.silent ?_ rfl (by simp [hphase])⟩
      simp only [outcome, hphase, executeTimers_of_none behave start _ _ _ hnone]
    · next timer hfind =>
      cases hstep
      rw [hphase] at hnodup
      obtain ⟨behave', start', htable, hrecorded⟩ :=
        exists_executeTimers hfind (List.nodup_cons.mp hnodup).1 h
      have houtcome : outcome behave' start' elapsed actions s =
          executeTimers behave' start' s.mgr (timerId :: due) := by
        simp only [outcome, hphase]
      exact ⟨behave', start', houtcome ▸ htable, houtcome ▸ hrecorded, by simp [hphase]⟩
  · cases hstep
    exact absurd rfl (hu _)
  · cases hstep

end Events

/-- The rest of a tick of the loop is the rest of one of the manager. -/
theorem exists_completes {first : UInt32} {delay : ℕ} {s t : State κ} {events : List (Event κ)}
    (hs : Counted first s ∧ Sound delay s)
    (hok : Always step (fun s e => Admissible delay s e ∧ Entered s e) s events)
    (hrun : run step s events = some t) (hno : ∀ order, Event.expire order ∉ events)
    (ht : t.phase = .executing []) :
    ∃ behave start elapsed actions, Completes behave start elapsed actions s t := by
  induction events generalizing s with
  | nil =>
    cases hrun
    refine ⟨fun _ _ _ => [], fun _ => 0, fun _ => 0, [], ?_, ?_, fun _ _ _ _ => rfl⟩
    · simp only [outcome, ht, executeTimers]
    · intro timerId life hlife
      simp only [outcome, ht, executeTimers, List.map_nil, List.not_mem_nil, if_false, hlife]
  | cons e rest ih =>
    obtain ⟨u, hstep, hrest⟩ := exists_of_run_cons hrun
    have hnorest : ∀ order, Event.expire order ∉ rest :=
      fun order hmem => hno order (List.mem_cons_of_mem e hmem)
    have hwaiting : ∀ expiry, u.phase ≠ .waiting expiry := by
      intro expiry hphase
      have hlast := waiting_of_run hphase hnorest hrest
      rw [ht] at hlast
      cases hlast
    obtain ⟨behave, start, elapsed, actions, h⟩ :=
      ih (keep s e u hs hok.1.1 hstep) (hok.2 u hstep) hrest hnorest
    cases e with
    | expire order => exact absurd List.mem_cons_self (hno order)
    | pass time => exact ⟨behave, start, elapsed, actions, h.pass hstep⟩
    | addTimer func interval =>
      obtain ⟨running, due, hphase⟩ := calling_of_step (Or.inl ⟨func, interval, rfl⟩) hstep hwaiting
      have hin := hok.1.2 running due hphase
      obtain ⟨timer, hfind⟩ := Option.ne_none_iff_exists'.mp hin
      obtain ⟨life, hlife, _⟩ := hs.2.listed running timer hfind
      exact ⟨behave, start, elapsed, _, h.addTimer hphase (hs.1.unused hok.1.1)
        (by simp [hlife]) hin hstep⟩
    | cancel timerId =>
      obtain ⟨running, due, hphase⟩ := calling_of_step (Or.inr ⟨timerId, rfl⟩) hstep hwaiting
      exact ⟨behave, start, elapsed, _, h.cancel hphase (hok.1.2 running due hphase) hstep⟩
    | look =>
      obtain ⟨elapsed', h'⟩ := h.look hs.2 hstep
      exact ⟨behave, start, elapsed', actions, h'⟩
    | next =>
      obtain ⟨behave', start', h'⟩ := h.next hs.2 hwaiting hstep
      exact ⟨behave', start', elapsed, actions, h'⟩
    | back => exact ⟨behave, start, elapsed, [], h.back hstep⟩

/-- From the expiry of the deadline timer to the end of the second loop, the table is changed as
`logicTimerFunc` changes it, whatever time passes, and the executions are put down in the
histories with their times. -/
theorem exists_logicTimerFunc {first : UInt32} {delay : ℕ} {s t : State κ}
    {order : List UInt32} {events : List (Event κ)} (hs : Counted first s ∧ Sound delay s)
    (hok : Always step (fun s e => Admissible delay s e ∧ Entered s e) s
      (.expire order :: events))
    (hrun : run step s (.expire order :: events) = some t)
    (hno : ∀ other, Event.expire other ∉ events) (ht : t.phase = .executing []) :
    ∃ behave start elapsed,
      (logicTimerFunc behave start elapsed s.mgr order).1 = some t.mgr ∧
        Recorded start (logicTimerFunc behave start elapsed s.mgr order).2 s t := by
  obtain ⟨u, hstep, hrest⟩ := exists_of_run_cons hrun
  obtain ⟨behave, start, elapsed, actions, h⟩ :=
    exists_completes (keep s _ u hs hok.1.1 hstep) (hok.2 u hstep) hrest hno ht
  refine ⟨behave, start, elapsed, ?_⟩
  simp only [step] at hstep
  split at hstep
  · split at hstep <;> cases hstep
    exact ⟨h.table, h.recorded⟩
  · cases hstep

end BlackCat.TimerLoop
