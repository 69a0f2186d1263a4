import BlackCat.RpcTask
import BlackCat.Runs

/-!
`RpcTaskMgr` with its runner. Any thread may push or stop at any moment; the one
runner is inside `Pop`, waiting on the condition variable, between `Pop` and the
task it took, inside a task, or out of `Run`. While no `Stop` has happened the
tasks taken and those still queued are the tasks pushed. From the first `Stop`
on `Pop` returns false, so that no further task is taken.
-/
namespace BlackCat.TaskRunner

open RpcTask Runs

variable {α : Type*}

/-- Where the runner is in `RpcTaskMgr::Run`. -/
inductive Runner (α : Type*)
  | popping
  | waiting
  | popped (task : α)
  | executing (task : α)
  | ended

/-- The queue, the runner, and the tasks whose `Run` has begun. -/
structure State (α : Type*) where
  mgr : RpcTaskMgr α
  runner : Runner α
  executed : List α

def start : State α := ⟨fresh, .popping, []⟩

inductive Event (α : Type*)
  | push (task : α)
  | stop
  | wake
  | pop
  | execute
  | finish

/-- `cv_.notify_all()`: a runner in `cv_.wait` goes on to test the queue. -/
def Runner.notified : Runner α → Runner α
  | .waiting => .popping
  | .popping => .popping
  | .popped task => .popped task
  | .executing task => .executing task
  | .ended => .ended

/-- Where the critical section of `Pop` takes the runner. -/
def Runner.afterPop : Popped α → Runner α
  | .waits => .waiting
  | .stopped => .ended
  | .took task goOn => if goOn then .popped task else .ended

/-- One event; `wake` is the return of the wait, for a notification or for none. -/
def step (s : State α) : Event α → Option (State α)
  | .push task => some { s with mgr := push s.mgr task, runner := s.runner.notified }
  | .stop => some { s with mgr := stop s.mgr, runner := s.runner.notified }
  | .wake =>
    match s.runner with
    | .waiting => some { s with runner := .popping }
    | _ => none
  | .pop =>
    match s.runner with
    | .popping => some { s with mgr := (pop s.mgr).1, runner := .afterPop (pop s.mgr).2 }
    | _ => none
  | .execute =>
    match s.runner with
    | .popped task => some { s with runner := .executing task, executed := s.executed ++ [task] }
    | _ => none
  | .finish =>
    match s.runner with
    | .executing _ => some { s with runner := .popping }
    | _ => none

theorem step_wake {s t : State α} (h : step s .wake = some t) :
    s.runner = .waiting ∧ t = { s with runner := .popping } := by
  cases hr : s.runner <;> simp only [step, hr] at h <;> cases h
  exact ⟨rfl, rfl⟩

theorem step_pop {s t : State α} (h : step s .pop = some t) :
    s.runner = .popping ∧
      t = { s with mgr := (pop s.mgr).1, runner := .afterPop (pop s.mgr).2 } := by
  cases hr : s.runner <;> simp only [step, hr] at h <;> cases h
  exact ⟨rfl, rfl⟩

theorem step_execute {s t : State α} (h : step s .execute = some t) :
    ∃ task, s.runner = .popped task ∧
      t = { s with runner := .executing task, executed := s.executed ++ [task] } := by
  cases hr : s.runner <;> simp only [step, hr] at h <;> cases h
  exact ⟨_, rfl, rfl⟩

theorem step_finish {s t : State α} (h : step s .finish = some t) :
    ∃ task, s.runner = .executing task ∧ t = { s with runner := .popping } := by
  cases hr : s.runner <;> simp only [step, hr] at h <;> cases h
  exact ⟨_, rfl, rfl⟩

/-- The tasks pushed before the first `Stop`. -/
def pushedBeforeStop : List (Event α) → List α
  | [] => []
  | .push task :: events => task :: pushedBeforeStop events
  | .stop :: _ => []
  | .wake :: events => pushedBeforeStop events
  | .pop :: events => pushedBeforeStop events
  | .execute :: events => pushedBeforeStop events
  | .finish :: events => pushedBeforeStop events

/-- The task that `Pop` returned and that has not begun. -/
def Runner.inHand : Runner α → List α
  | .popped task => [task]
  | _ => []

/-- The tasks executed and the one in hand. -/
def taken (s : State α) : List α := s.executed ++ s.runner.inHand

theorem inHand_notified (runner : Runner α) : runner.notified.inHand = runner.inHand := by
  cases runner <;> rfl

theorem notified_ne_waiting (runner : Runner α) : runner.notified ≠ .waiting := by
  cases runner <;> simp [Runner.notified]

theorem pop_running {mgr : RpcTaskMgr α} (h : mgr.running = true) :
    (pop mgr).1.running = true ∧
      (Runner.afterPop (pop mgr).2).inHand ++ (pop mgr).1.tasks = mgr.tasks := by
  unfold pop
  cases htasks : mgr.tasks with
  | nil => simp [h, htasks, Runner.afterPop, Runner.inHand]
  | cons task tasks => simp [h, Runner.afterPop, Runner.inHand]

theorem pop_stopped {mgr : RpcTaskMgr α} (h : mgr.running = false) :
    (pop mgr).1.running = false ∧ Runner.afterPop (pop mgr).2 = .ended := by
  unfold pop
  cases htasks : mgr.tasks with
  | nil => simp [h, Runner.afterPop]
  | cons task tasks => simp [h, Runner.afterPop]

theorem taken_step {s t : State α} {e : Event α} (hrunning : s.mgr.running = true)
    (he : e ≠ .stop) (h : step s e = some t) :
    t.mgr.running = true ∧
      taken t ++ t.mgr.tasks = taken s ++ s.mgr.tasks ++ pushedBeforeStop [e] := by
  cases e with
  | push task =>
    cases h
    refine ⟨hrunning, ?_⟩
    simp only [taken, inHand_notified, push, pushedBeforeStop, List.append_assoc]
  | stop => exact absurd rfl he
  | wake =>
    obtain ⟨hr, rfl⟩ := step_wake h
    exact ⟨hrunning, by simp [taken, hr, Runner.inHand, pushedBeforeStop]⟩
  | pop =>
    obtain ⟨hr, rfl⟩ := step_pop h
    obtain ⟨hstill, htasks⟩ := pop_running hrunning
    refine ⟨hstill, ?_⟩
    rw [taken, List.append_assoc, htasks, taken, hr]
    simp [Runner.inHand, pushedBeforeStop]
  | execute =>
    obtain ⟨task, hr, rfl⟩ := step_execute h
    exact ⟨hrunning, by simp [taken, hr, Runner.inHand, pushedBeforeStop]⟩
  | finish =>
    obtain ⟨task, hr, rfl⟩ := step_finish h
    exact ⟨hrunning, by simp [taken, hr, Runner.inHand, pushedBeforeStop]⟩

/-- A state after a `Stop`, seen from the one in which the `Stop` happened: the
runner does not wait and takes no further task. -/
structure Over (u s : State α) : Prop where
  stopped : s.mgr.running = false
  awake : s.runner ≠ .waiting
  taken : taken s = taken u
  executed : u.executed <+: s.executed

theorem over_stop (u : State α) :
    Over u { u with mgr := stop u.mgr, runner := u.runner.notified } where
  stopped := rfl
  awake := notified_ne_waiting u.runner
  taken := by rw [TaskRunner.taken, inHand_notified, TaskRunner.taken]
  executed := List.prefix_rfl

theorem Over.keep {u s t : State α} {e : Event α} (hs : Over u s) (h : step s e = some t) :
    Over u t := by
  have htaken := hs.taken
  unfold TaskRunner.taken at htaken
  cases e with
  | push task =>
    cases h
    refine ⟨hs.stopped, notified_ne_waiting s.runner, ?_, hs.executed⟩
    rw [TaskRunner.taken, inHand_notified]
    exact hs.taken
  | stop =>
    cases h
    refine ⟨rfl, notified_ne_waiting s.runner, ?_, hs.executed⟩
    rw [TaskRunner.taken, inHand_notified]
    exact hs.taken
  | wake =>
    obtain ⟨hr, rfl⟩ := step_wake h
    exact absurd hr hs.awake
  | pop =>
    obtain ⟨hr, rfl⟩ := step_pop h
    obtain ⟨hstopped, hended⟩ := pop_stopped hs.stopped
    rw [hr] at htaken
    rw [hended]
    exact ⟨hstopped, by simp, htaken, hs.executed⟩
  | execute =>
    obtain ⟨task, hr, rfl⟩ := step_execute h
    rw [hr] at htaken
    refine ⟨hs.stopped, by simp, ?_, hs.executed.trans (List.prefix_append ..)⟩
    simpa [TaskRunner.taken, Runner.inHand] using htaken
  | finish =>
    obtain ⟨task, hr, rfl⟩ := step_finish h
    rw [hr] at htaken
    exact ⟨hs.stopped, by simp, htaken, hs.executed⟩

theorem Over.of_run {u s : State α} {events : List (Event α)}
    (h : run step u (.stop :: events) = some s) : Over u s := by
  obtain ⟨v, hstop, hrest⟩ := exists_of_run_cons h
  cases hstop
  exact invariant_of_step (fun _ _ _ => Over.keep) (over_stop u) hrest

/-- Of the tasks taken when the `Stop` happened only the one in hand may still begin. -/
theorem Over.executed_eq {u s : State α} (h : Over u s) :
    s.executed = u.executed ∨
      ∃ task, u.runner = .popped task ∧ s.executed = u.executed ++ [task] := by
  obtain ⟨more, hmore⟩ := h.executed
  have htaken := h.taken
  rw [TaskRunner.taken, TaskRunner.taken, ← hmore, List.append_assoc, List.append_cancel_left_eq]
    at htaken
  cases more with
  | nil => exact Or.inl (by rw [← hmore, List.append_nil])
  | cons task more =>
    cases hr : u.runner with
    | popped inHand =>
      rw [hr] at htaken
      simp only [Runner.inHand, List.cons_append, List.cons.injEq, List.append_eq_nil_iff]
        at htaken
      obtain ⟨rfl, rfl, _⟩ := htaken
      exact Or.inr ⟨task, rfl, hmore.symm⟩
    | popping => simp [hr, Runner.inHand] at htaken
    | waiting => simp [hr, Runner.inHand] at htaken
    | executing inside => simp [hr, Runner.inHand] at htaken
    | ended => simp [hr, Runner.inHand] at htaken

theorem pushedBeforeStop_cons {e : Event α} (he : e ≠ .stop) (events : List (Event α)) :
    pushedBeforeStop (e :: events) = pushedBeforeStop [e] ++ pushedBeforeStop events := by
  cases e with
  | stop => exact absurd rfl he
  | push task => rfl
  | wake => rfl
  | pop => rfl
  | execute => rfl
  | finish => rfl

theorem executed_of_run {s t : State α} {events : List (Event α)}
    (hrunning : s.mgr.running = true) (hrun : run step s events = some t) :
    t.executed <+: taken s ++ s.mgr.tasks ++ pushedBeforeStop events := by
  induction events generalizing s with
  | nil =>
    cases hrun
    rw [taken, List.append_assoc, List.append_assoc]
    exact List.prefix_append ..
  | cons e events ih =>
    by_cases he : e = .stop
    · subst e
      have hover := Over.of_run hrun
      have htaken : t.executed <+: taken s := by
        rw [← hover.taken]
        exact List.prefix_append ..
      rw [List.append_assoc]
      exact htaken.trans (List.prefix_append ..)
    · obtain ⟨u, hstep, hrest⟩ := exists_of_run_cons hrun
      obtain ⟨hstill, hpushed⟩ := taken_step hrunning he hstep
      rw [pushedBeforeStop_cons he, ← List.append_assoc, ← hpushed]
      exact ih hstill hrest

/-- The semantics of the task queue: what is executed is the beginning of what was
pushed before the first `Stop`, and after a `Stop` only the task already popped
may still begin, the runner never waits, and its next `Pop` ends `Run`. -/
theorem task_queue_semantics (events : List (Event α)) (s : State α)
    (hrun : run step start events = some s) :
    s.executed <+: pushedBeforeStop events ∧
      ∀ before after u, events = before ++ .stop :: after →
        run step start before = some u →
          (s.executed = u.executed ∨
            ∃ task, u.runner = .popped task ∧ s.executed = u.executed ++ [task]) ∧
          s.runner ≠ .waiting ∧
          (s.runner = .popping → ∃ t, step s .pop = some t ∧ t.runner = .ended) := by
  refine ⟨executed_of_run rfl hrun, ?_⟩
  rintro before after u rfl hbefore
  rw [run_append_of_run hbefore] at hrun
  have hover := Over.of_run hrun
  refine ⟨hover.executed_eq, hover.awake, ?_⟩
  intro hpopping
  refine ⟨{ s with mgr := (pop s.mgr).1, runner := .afterPop (pop s.mgr).2 }, ?_, ?_⟩
  · simp only [step, hpopping]
  · exact (pop_stopped hover.stopped).2

/-- A `Stop` between `Pop` and the task it took: that task is executed, the queued
one and the one pushed later are not. -/
theorem task_queue_semantics_stop_after_pop :
    ([1] : List ℕ) <+: [1, 2] ∧
      ∃ t, step (⟨⟨[3], false⟩, .popping, [1]⟩ : State ℕ) .pop = some t ∧
        t.runner = .ended := by
  have h := task_queue_semantics [.push 1, .push 2, .pop, .stop, .push 3, .execute, .finish]
    (⟨⟨[3], false⟩, .popping, [1]⟩ : State ℕ) rfl
  exact ⟨h.1, (h.2 [.push 1, .push 2, .pop] [.push 3, .execute, .finish] _ rfl rfl).2.2 rfl⟩

end BlackCat.TaskRunner
