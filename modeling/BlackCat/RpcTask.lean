import Mathlib.Data.Nat.Notation

/-!
`RpcTaskMgr`, the queue between a provider's network thread and its task
runner. `Push`, `Stop` and the critical section of `Pop` each hold the mutex,
so each is one step here.
-/
namespace BlackCat.RpcTask

variable {α : Type*}

/-- The queue `tasks_` and the flag `running_`. -/
structure RpcTaskMgr (α : Type*) where
  tasks : List α
  running : Bool

def fresh : RpcTaskMgr α := ⟨[], true⟩

def push (mgr : RpcTaskMgr α) (task : α) : RpcTaskMgr α :=
  { mgr with tasks := mgr.tasks ++ [task] }

def stop (_ : RpcTaskMgr α) : RpcTaskMgr α := ⟨[], false⟩

/-- How the critical section of `Pop` ends: it waits for a task, it returns false
with none, or it has taken one and returns the flag. -/
inductive Popped (α : Type*)
  | waits
  | stopped
  | took (task : α) (goOn : Bool)

def pop (mgr : RpcTaskMgr α) : RpcTaskMgr α × Popped α :=
  match mgr.tasks with
  | [] => (mgr, if mgr.running then .waits else .stopped)
  | task :: tasks => ({ mgr with tasks := tasks }, .took task mgr.running)

theorem pop_took {mgr next : RpcTaskMgr α} {task : α} {goOn : Bool}
    (h : pop mgr = (next, .took task goOn)) :
    mgr.tasks = task :: next.tasks ∧ next.running = mgr.running ∧ goOn = mgr.running := by
  unfold pop at h
  cases htasks : mgr.tasks with
  | nil =>
    rw [htasks] at h
    cases hrunning : mgr.running <;> simp [hrunning] at h
  | cons first tasks =>
    rw [htasks] at h
    cases h
    exact ⟨rfl, rfl, rfl⟩

end BlackCat.RpcTask
