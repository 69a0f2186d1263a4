import Mathlib.Data.Int.Notation
import Mathlib.Data.List.Nodup
import Mathlib.Logic.Function.Basic

/-!
The timer manager of ServerLib. A table keeps, for every timer identifier, the
interval, the callback and the moment the timer's clock was last started. A
tick scans the table for the timers whose interval has passed and then goes
through their identifiers once more: one that is still in the table gets its
clock restarted and its callback called. The callbacks add and cancel timers
while the tick is going on, so the table a callback meets is the table of the
scan with the edits of the callbacks before it. A callback runs in the entry of
its timer: one that cancels its own timer destroys itself, and what it does after
that is undefined.
-/

namespace BlackCat.Timers

/-- A timer: interval in milliseconds, callback, and the clock's last start in nanoseconds. -/
structure Timer (κ : Type*) where
  interval : UInt32
  func : κ
  timer : ℤ
deriving DecidableEq

/-- The timer manager: the next identifier and the table. -/
structure TimerMgr (κ : Type*) where
  timerId : UInt32
  timerMap : UInt32 → Option (Timer κ)

variable {κ : Type*}

/-- Adding a timer takes the next identifier; its clock starts now. -/
def addTimer (mgr : TimerMgr κ) (func : κ) (interval : UInt32) (now : ℤ) :
    UInt32 × TimerMgr κ :=
  (mgr.timerId,
    { timerId := mgr.timerId + 1
      timerMap := Function.update mgr.timerMap mgr.timerId (some ⟨interval, func, now⟩) })

def cancel (mgr : TimerMgr κ) (timerId : UInt32) : TimerMgr κ :=
  { mgr with timerMap := Function.update mgr.timerMap timerId none }

/-- What a callback does to the table. -/
inductive Action (κ : Type*) where
  | addTimer (func : κ) (interval : UInt32) (now : ℤ)
  | cancel (timerId : UInt32)
deriving DecidableEq

/-- One action, with the identifier it gives to a new timer. -/
def act (mgr : TimerMgr κ) : Action κ → TimerMgr κ × List UInt32
  | .addTimer func interval now =>
    let added := addTimer mgr func interval now
    (added.2, [added.1])
  | .cancel timerId => (cancel mgr timerId, [])

/-- The action erases the entry of the timer or assigns to it: the function that the entry holds
is destroyed. -/
def Action.destroys (mgr : TimerMgr κ) (timerId : UInt32) : Action κ → Bool
  | .addTimer _ _ _ => decide (mgr.timerId = timerId)
  | .cancel other => decide (other = timerId)

/-- The actions of the callback of a timer in order, with the identifiers it was given for its new
timers. An action after the function was destroyed is undefined: there is no table then. -/
def perform (timerId : UInt32) (mgr : TimerMgr κ) :
    List (Action κ) → Option (TimerMgr κ) × List UInt32
  | [] => (some mgr, [])
  | action :: rest =>
    let done := act mgr action
    if action.destroys mgr timerId && !rest.isEmpty then (none, done.2)
    else
      let last := perform timerId done.1 rest
      (last.1, done.2 ++ last.2)

def restart (mgr : TimerMgr κ) (timerId : UInt32) (timer : Timer κ) (now : ℤ) : TimerMgr κ :=
  { mgr with timerMap := Function.update mgr.timerMap timerId (some { timer with timer := now }) }

/-- The identifiers a scan collects, the table being iterated in the given order. -/
def timerNeedToExecute (elapsed : UInt32 → ℤ) (mgr : TimerMgr κ) (order : List UInt32) :
    List UInt32 :=
  order.filter fun timerId =>
    match mgr.timerMap timerId with
    | some timer => decide ((timer.interval.toNat : ℤ) * 1000000 ≤ elapsed timerId)
    | none => false

/-- One executed callback: its timer, the table it was called on, what it did, and the
identifiers of the timers it added. -/
structure Execution (κ : Type*) where
  timerId : UInt32
  func : κ
  mgr : TimerMgr κ
  actions : List (Action κ)
  added : List UInt32

section Tick

variable (behave : κ → UInt32 → TimerMgr κ → List (Action κ)) (start : UInt32 → ℤ)

/-- One callback: the clock is restarted first, then the callback edits the table. -/
def execute (mgr : TimerMgr κ) (timerId : UInt32) (timer : Timer κ) :
    Option (TimerMgr κ) × Execution κ :=
  let started := restart mgr timerId timer (start timerId)
  let actions := behave timer.func timerId started
  let last := perform timerId started actions
  (last.1, ⟨timerId, timer.func, started, actions, last.2⟩)

/-- The second loop of a tick: identifiers no longer in the table are passed over. A callback
whose behaviour is undefined ends it. -/
def executeTimers (mgr : TimerMgr κ) : List UInt32 → Option (TimerMgr κ) × List (Execution κ)
  | [] => (some mgr, [])
  | timerId :: rest =>
    match mgr.timerMap timerId with
    | none => executeTimers mgr rest
    | some timer =>
      let done := execute behave start mgr timerId timer
      match done.1 with
      | none => (none, [done.2])
      | some next =>
        let last := executeTimers next rest
        (last.1, done.2 :: last.2)

/-- One tick of the manager, with the callbacks it called. -/
def logicTimerFunc (elapsed : UInt32 → ℤ) (mgr : TimerMgr κ) (order : List UInt32) :
    Option (TimerMgr κ) × List (Execution κ) :=
  executeTimers behave start mgr (timerNeedToExecute elapsed mgr order)

end Tick

/-- Some actions in order. -/
def edits (mgr : TimerMgr κ) : List (Action κ) → TimerMgr κ × List UInt32
  | [] => (mgr, [])
  | action :: rest =>
    let done := act mgr action
    let last := edits done.1 rest
    (last.1, done.2 ++ last.2)

/-- The callback of the timer does nothing after cancelling its own timer. -/
def Careful (timerId : UInt32) (actions : List (Action κ)) : Prop :=
  ∀ before after, actions = before ++ .cancel timerId :: after → after = []

theorem careful_cons {timerId : UInt32} {action : Action κ} {rest : List (Action κ)} :
    Careful timerId (action :: rest) ↔
      (action = .cancel timerId → rest = []) ∧ Careful timerId rest := by
  constructor
  · intro h
    refine ⟨fun heq => h [] rest (by rw [heq]; rfl), fun before after hsplit => ?_⟩
    exact h (action :: before) after (by rw [hsplit]; rfl)
  · rintro ⟨hfirst, hrest⟩ before after hsplit
    cases before with
    | nil =>
      obtain ⟨heq, rfl⟩ := List.cons.inj hsplit
      exact hfirst heq
    | cons first before =>
      obtain ⟨_, htail⟩ := List.cons.inj hsplit
      exact hrest before after htail

theorem perform_eq_edits {timerId : UInt32} {mgr last : TimerMgr κ} {actions : List (Action κ)}
    (h : (perform timerId mgr actions).1 = some last) :
    edits mgr actions = (last, (perform timerId mgr actions).2) := by
  induction actions generalizing mgr with
  | nil =>
    cases h
    rfl
  | cons action rest ih =>
    by_cases hgone : (action.destroys mgr timerId && !rest.isEmpty) = true
    · simp [perform, hgone] at h
    · simp only [perform, hgone, Bool.false_eq_true, if_false] at h ⊢
      simp only [edits, ih h]

/-- A callback is defined exactly if it does nothing after cancelling its own timer. -/
theorem perform_ne_none_iff {timerId : UInt32} {mgr : TimerMgr κ} {actions : List (Action κ)}
    (hnew : timerId ∉ (perform timerId mgr actions).2) :
    (perform timerId mgr actions).1 ≠ none ↔ Careful timerId actions := by
  induction actions generalizing mgr with
  | nil => simp [perform, Careful]
  | cons action rest ih =>
    rw [careful_cons]
    by_cases hgone : action.destroys mgr timerId = true
    · cases action with
      | addTimer func interval now =>
        simp only [Action.destroys, decide_eq_true_eq] at hgone
        refine absurd ?_ hnew
        simp only [perform, act, addTimer, hgone]
        split <;> simp
      | cancel other =>
        simp only [Action.destroys, decide_eq_true_eq] at hgone
        subst hgone
        cases rest with
        | nil => simp [perform, Careful]
        | cons next rest => simp [perform, Action.destroys]
    · have hother : action ≠ .cancel timerId := by
        rintro rfl
        exact hgone (decide_eq_true rfl)
      simp only [perform, hgone, Bool.false_and, Bool.false_eq_true, if_false, List.mem_append,
        not_or] at hnew ⊢
      rw [ih hnew.2]
      exact ⟨fun hrest => ⟨fun heq => absurd heq hother, hrest⟩, And.right⟩

theorem edits_append (mgr : TimerMgr κ) (first rest : List (Action κ)) :
    edits mgr (first ++ rest) =
      ((edits (edits mgr first).1 rest).1,
        (edits mgr first).2 ++ (edits (edits mgr first).1 rest).2) := by
  induction first generalizing mgr with
  | nil => rfl
  | cons action first ih => simp only [List.cons_append, edits, ih, List.append_assoc]

theorem edits_timerMap (timerId : UInt32) (actions : List (Action κ)) (mgr : TimerMgr κ)
    (hnew : timerId ∉ (edits mgr actions).2) :
    (Action.cancel timerId ∈ actions → (edits mgr actions).1.timerMap timerId = none) ∧
      (Action.cancel timerId ∉ actions →
        (edits mgr actions).1.timerMap timerId = mgr.timerMap timerId) := by
  induction actions generalizing mgr with
  | nil => simp [edits]
  | cons action rest ih =>
    simp only [edits, List.mem_append, not_or] at hnew
    obtain ⟨hfirst, hrest⟩ := hnew
    have hih := ih _ hrest
    cases action with
    | addTimer func interval now =>
      have hne : timerId ≠ mgr.timerId := fun heq => hfirst (heq ▸ List.mem_singleton_self _)
      simp only [edits, List.mem_cons, reduceCtorEq, false_or]
      refine ⟨hih.1, fun hnot => (hih.2 hnot).trans ?_⟩
      exact Function.update_of_ne hne _ _
    | cancel other =>
      simp only [edits, List.mem_cons, Action.cancel.injEq]
      by_cases hmem : Action.cancel timerId ∈ rest
      · exact ⟨fun _ => hih.1 hmem, fun hnot => absurd (Or.inr hmem) hnot⟩
      · constructor
        · rintro (rfl | hin)
          · exact (hih.2 hmem).trans (Function.update_self _ _ _)
          · exact absurd hin hmem
        · intro hnot
          have hne : timerId ≠ other := fun h => hnot (Or.inl h)
          exact (hih.2 hmem).trans (Function.update_of_ne hne _ _)

theorem kept_or_added_of_edits (timerId : UInt32) (timer : Timer κ) (actions : List (Action κ))
    (mgr : TimerMgr κ) (hlast : (edits mgr actions).1.timerMap timerId = some timer) :
    mgr.timerMap timerId = some timer ∨
      (timerId ∈ (edits mgr actions).2 ∧
        Action.addTimer timer.func timer.interval timer.timer ∈ actions) := by
  induction actions generalizing mgr with
  | nil => exact Or.inl hlast
  | cons action rest ih =>
    simp only [edits, List.mem_append, List.mem_cons]
    rcases ih _ hlast with hbefore | ⟨hadded, hmem⟩
    · cases action with
      | addTimer func interval now =>
        by_cases hid : timerId = mgr.timerId
        · subst hid
          simp only [act, addTimer, Function.update_self, Option.some.injEq] at hbefore
          subst hbefore
          exact Or.inr ⟨Or.inl (List.mem_singleton_self _), Or.inl rfl⟩
        · simp only [act, addTimer, Function.update_of_ne hid] at hbefore
          exact Or.inl hbefore
      | cancel other =>
        by_cases hid : timerId = other
        · simp [act, cancel, hid] at hbefore
        · simp only [act, cancel, Function.update_of_ne hid] at hbefore
          exact Or.inl hbefore
    · exact Or.inr ⟨Or.inr hadded, Or.inr hmem⟩

theorem restart_timerMap_of_ne (mgr : TimerMgr κ) (timerId other : UInt32) (timer : Timer κ)
    (now : ℤ) (hne : other ≠ timerId) :
    (restart mgr timerId timer now).timerMap other = mgr.timerMap other :=
  Function.update_of_ne hne _ _

/-- The table with the clocks of some timers restarted. -/
def restartAll (start : UInt32 → ℤ) (ids : List UInt32) (mgr : TimerMgr κ) : TimerMgr κ :=
  { mgr with
    timerMap := fun timerId => (mgr.timerMap timerId).map fun timer =>
      if timerId ∈ ids then { timer with timer := start timerId } else timer }

section Restarts

variable (start : UInt32 → ℤ)

theorem restartAll_nil (mgr : TimerMgr κ) : restartAll start [] mgr = mgr := by
  simp [restartAll]

theorem restartAll_restart (ids : List UInt32) (mgr : TimerMgr κ) {timerId : UInt32}
    {timer : Timer κ} (hfind : mgr.timerMap timerId = some timer) (hnot : timerId ∉ ids) :
    restartAll start ids (restart mgr timerId timer (start timerId)) =
      restartAll start (timerId :: ids) mgr := by
  simp only [restartAll, restart, TimerMgr.mk.injEq, true_and]
  funext other
  by_cases hid : other = timerId
  · subst hid
    simp [hfind, hnot]
  · simp [hid]

theorem restartAll_act (ids : List UInt32) (mgr : TimerMgr κ) (action : Action κ)
    (h : ∀ timerId ∈ (act mgr action).2, timerId ∉ ids) :
    act (restartAll start ids mgr) action =
      (restartAll start ids (act mgr action).1, (act mgr action).2) := by
  cases action with
  | addTimer func interval now =>
    have hnot : mgr.timerId ∉ ids := h _ (List.mem_singleton_self _)
    simp only [act, addTimer, restartAll, Prod.mk.injEq, TimerMgr.mk.injEq, true_and, and_true]
    funext other
    by_cases hid : other = mgr.timerId
    · subst hid
      simp [hnot]
    · simp [hid]
  | cancel timerId =>
    simp only [act, cancel, restartAll, Prod.mk.injEq, TimerMgr.mk.injEq, true_and, and_true]
    funext other
    by_cases hid : other = timerId
    · simp [hid]
    · simp [hid]

theorem restartAll_edits (ids : List UInt32) (mgr : TimerMgr κ) (actions : List (Action κ))
    (h : ∀ timerId ∈ (edits mgr actions).2, timerId ∉ ids) :
    edits (restartAll start ids mgr) actions =
      (restartAll start ids (edits mgr actions).1, (edits mgr actions).2) := by
  induction actions generalizing mgr with
  | nil => rfl
  | cons action rest ih =>
    simp only [edits, List.mem_append] at h
    have hfirst := restartAll_act start ids mgr action fun timerId hin => h timerId (Or.inl hin)
    have hrest := ih (act mgr action).1 fun timerId hin => h timerId (Or.inr hin)
    simp only [edits, hfirst, hrest]

end Restarts

section Tick

variable (behave : κ → UInt32 → TimerMgr κ → List (Action κ)) (start : UInt32 → ℤ)

theorem executeTimers_of_none (mgr : TimerMgr κ) (timerId : UInt32) (rest : List UInt32)
    (hnone : mgr.timerMap timerId = none) :
    executeTimers behave start mgr (timerId :: rest) = executeTimers behave start mgr rest := by
  simp only [executeTimers, hnone]

theorem executeTimers_of_some (mgr next : TimerMgr κ) (timerId : UInt32) (rest : List UInt32)
    (timer : Timer κ) (hsome : mgr.timerMap timerId = some timer)
    (hdone : (execute behave start mgr timerId timer).1 = some next) :
    executeTimers behave start mgr (timerId :: rest) =
      ((executeTimers behave start next rest).1,
        (execute behave start mgr timerId timer).2 ::
          (executeTimers behave start next rest).2) := by
  simp only [executeTimers, hsome, hdone]

/-- The runs of the second loop in which every callback is defined. -/
inductive Executes : TimerMgr κ → List UInt32 → TimerMgr κ → List (Execution κ) → Prop
  | nil (mgr : TimerMgr κ) : Executes mgr [] mgr []
  | gone {mgr last : TimerMgr κ} {timerId : UInt32} {rest : List UInt32}
      {log : List (Execution κ)} : mgr.timerMap timerId = none → Executes mgr rest last log →
      Executes mgr (timerId :: rest) last log
  | call {mgr next last : TimerMgr κ} {timerId : UInt32} {timer : Timer κ} {rest : List UInt32}
      {log : List (Execution κ)} : mgr.timerMap timerId = some timer →
      (execute behave start mgr timerId timer).1 = some next → Executes next rest last log →
      Executes mgr (timerId :: rest) last ((execute behave start mgr timerId timer).2 :: log)

theorem executes_of_eq_some (ids : List UInt32) (mgr last : TimerMgr κ)
    (h : (executeTimers behave start mgr ids).1 = some last) :
    Executes behave start mgr ids last (executeTimers behave start mgr ids).2 := by
  fun_induction executeTimers behave start mgr ids with
  | case1 mgr =>
    cases h
    exact .nil last
  | case2 mgr timerId rest hnone ih => exact .gone hnone (ih h)
  | case3 mgr timerId rest timer hsome done hdone => cases h
  | case4 mgr timerId rest timer hsome done next hdone later ih => exact .call hsome hdone (ih h)

theorem executed_mem (ids : List UInt32) (mgr : TimerMgr κ) (x : Execution κ)
    (hx : x ∈ (executeTimers behave start mgr ids).2) : x.timerId ∈ ids := by
  fun_induction executeTimers behave start mgr ids with
  | case1 mgr => exact absurd hx List.not_mem_nil
  | case2 mgr timerId rest hnone ih => exact List.mem_cons_of_mem _ (ih hx)
  | case3 mgr timerId rest timer hsome done hdone =>
    rw [List.mem_singleton.mp hx]
    exact List.mem_cons_self
  | case4 mgr timerId rest timer hsome done next hdone later ih =>
    rcases List.mem_cons.mp hx with rfl | hlater
    · exact List.mem_cons_self
    · exact List.mem_cons_of_mem _ (ih hlater)

/-- The loop has a result exactly if no callback does anything after cancelling itself. -/
theorem executeTimers_ne_none_iff (ids : List UInt32) (mgr : TimerMgr κ)
    (hnew : ∀ x ∈ (executeTimers behave start mgr ids).2, x.timerId ∉ x.added) :
    (executeTimers behave start mgr ids).1 ≠ none ↔
      ∀ x ∈ (executeTimers behave start mgr ids).2, Careful x.timerId x.actions := by
  fun_induction executeTimers behave start mgr ids with
  | case1 mgr => simp
  | case2 mgr timerId rest hnone ih => exact ih hnew
  | case3 mgr timerId rest timer hsome done hdone =>
    have hiff := perform_ne_none_iff (hnew _ (List.mem_singleton_self _))
    simp only [ne_eq, not_true_eq_false, List.forall_mem_singleton, false_iff]
    exact fun hcareful => hiff.mpr hcareful hdone
  | case4 mgr timerId rest timer hsome done next hdone later ih =>
    rw [List.forall_mem_cons] at hnew ⊢
    have hiff := perform_ne_none_iff hnew.1
    have hfirst : (execute behave start mgr timerId timer).1 ≠ none := by
      rw [hdone]
      exact Option.some_ne_none next
    exact (ih hnew.2).trans (and_iff_right (hiff.mp hfirst)).symm

variable {behave start}

theorem execute_edits {mgr next : TimerMgr κ} {timerId : UInt32} {timer : Timer κ}
    (h : (execute behave start mgr timerId timer).1 = some next) :
    edits (restart mgr timerId timer (start timerId))
        (execute behave start mgr timerId timer).2.actions =
      (next, (execute behave start mgr timerId timer).2.added) :=
  perform_eq_edits h

theorem execute_timerMap {mgr next : TimerMgr κ} {timerId other : UInt32} {timer : Timer κ}
    (h : (execute behave start mgr timerId timer).1 = some next) (hne : other ≠ timerId)
    (hnew : other ∉ (execute behave start mgr timerId timer).2.added) :
    next.timerMap other ≠ none ↔
      mgr.timerMap other ≠ none ∧
        Action.cancel other ∉ (execute behave start mgr timerId timer).2.actions := by
  have hedits := execute_edits h
  have hmap := edits_timerMap other (execute behave start mgr timerId timer).2.actions
    (restart mgr timerId timer (start timerId)) (by rw [hedits]; exact hnew)
  rw [hedits, restart_timerMap_of_ne mgr timerId other timer _ hne] at hmap
  by_cases hcancel : Action.cancel other ∈ (execute behave start mgr timerId timer).2.actions
  · simp only [hcancel, not_true_eq_false, and_false, iff_false, not_not]
    exact hmap.1 hcancel
  · simp only [hcancel, not_false_eq_true, and_true]
    rw [hmap.2 hcancel]

theorem kept_or_added_of_execute {mgr next : TimerMgr κ} {timerId other : UInt32}
    {timer kept : Timer κ} (h : (execute behave start mgr timerId timer).1 = some next)
    (hne : other ≠ timerId) (hlast : next.timerMap other = some kept) :
    mgr.timerMap other = some kept ∨
      (other ∈ (execute behave start mgr timerId timer).2.added ∧
        Action.addTimer kept.func kept.interval kept.timer ∈
          (execute behave start mgr timerId timer).2.actions) := by
  have hedits := execute_edits h
  have hkept := kept_or_added_of_edits other kept
    (execute behave start mgr timerId timer).2.actions
    (restart mgr timerId timer (start timerId)) (by rw [hedits]; exact hlast)
  rwa [hedits, restart_timerMap_of_ne mgr timerId other timer _ hne] at hkept

/-- The clocks of later timers may be restarted before a callback and its actions. -/
theorem edits_restartAll_cons {mgr next : TimerMgr κ} {timerId : UInt32} {timer : Timer κ}
    (hfind : mgr.timerMap timerId = some timer)
    (hdone : (execute behave start mgr timerId timer).1 = some next) (ids : List UInt32)
    (hnot : timerId ∉ ids)
    (hnew : ∀ other ∈ (execute behave start mgr timerId timer).2.added, other ∉ ids)
    (rest : List (Action κ)) :
    edits (restartAll start (timerId :: ids) mgr)
        ((execute behave start mgr timerId timer).2.actions ++ rest) =
      ((edits (restartAll start ids next) rest).1,
        (execute behave start mgr timerId timer).2.added ++
          (edits (restartAll start ids next) rest).2) := by
  have hedits := execute_edits hdone
  have hfirst := restartAll_edits start ids (restart mgr timerId timer (start timerId))
    (execute behave start mgr timerId timer).2.actions (by rw [hedits]; exact hnew)
  rw [hedits, restartAll_restart start ids mgr hfind hnot] at hfirst
  rw [edits_append, hfirst]

section Runs

variable {mgr last : TimerMgr κ} {ids : List UInt32} {log : List (Execution κ)}

theorem Executes.sublist (h : Executes behave start mgr ids last log) :
    (log.map Execution.timerId).Sublist ids := by
  induction h with
  | nil mgr => exact List.Sublist.refl []
  | gone _ _ ih => exact ih.cons _
  | call _ _ _ ih => exact ih.cons_cons _

theorem Executes.mem (h : Executes behave start mgr ids last log) {x : Execution κ}
    (hx : x ∈ log) : x.timerId ∈ ids :=
  h.sublist.subset (List.mem_map_of_mem hx)

/-- A timer of the scan is executed unless a callback before it in the scan has cancelled it. -/
theorem Executes.executed_iff (h : Executes behave start mgr ids last log) (hids : ids.Nodup)
    (ahead : List UInt32) (timerId : UInt32) (after : List UInt32)
    (hsplit : ids = ahead ++ timerId :: after) (hnew : ∀ x ∈ log, timerId ∉ x.added) :
    (∃ x ∈ log, x.timerId = timerId) ↔
      mgr.timerMap timerId ≠ none ∧
        ∀ x ∈ log, x.timerId ∈ ahead → Action.cancel timerId ∉ x.actions := by
  induction h generalizing ahead with
  | nil mgr => simp at hsplit
  | @gone mgr last head rest log hfind hrun ih =>
    obtain ⟨hhead, hrest⟩ := List.nodup_cons.mp hids
    have hlater : ∀ x ∈ log, x.timerId ≠ head := fun x hx heq => hhead (heq ▸ hrun.mem hx)
    rcases ahead with _ | ⟨first, ahead⟩
    · obtain ⟨rfl, rfl⟩ := List.cons.inj hsplit
      simp only [hfind, ne_eq, not_true_eq_false, false_and, iff_false, not_exists, not_and]
      exact hlater
    · obtain ⟨rfl, htail⟩ := List.cons.inj hsplit
      rw [ih hrest ahead htail hnew]
      refine and_congr_right fun _ => forall₂_congr fun x hx => ?_
      rw [List.mem_cons, or_iff_right (hlater x hx)]
  | @call mgr next last head timer rest log hfind hdone hrun ih =>
    obtain ⟨hhead, hrest⟩ := List.nodup_cons.mp hids
    have hlater : ∀ x ∈ log, x.timerId ≠ head := fun x hx heq => hhead (heq ▸ hrun.mem hx)
    rcases ahead with _ | ⟨first, ahead⟩
    · obtain ⟨rfl, rfl⟩ := List.cons.inj hsplit
      simp only [hfind, ne_eq, reduceCtorEq, not_false_eq_true, List.not_mem_nil,
        false_implies, implies_true, and_self, iff_true]
      exact ⟨_, List.mem_cons_self, rfl⟩
    · obtain ⟨rfl, htail⟩ := List.cons.inj hsplit
      have hne : timerId ≠ head := by
        rintro rfl
        exact hhead (htail ▸ List.mem_append_right ahead List.mem_cons_self)
      rw [List.forall_mem_cons] at hnew
      have hih := ih hrest ahead htail hnew.2
      have hahead : (∀ x ∈ log, x.timerId ∈ head :: ahead → Action.cancel timerId ∉ x.actions) ↔
          ∀ x ∈ log, x.timerId ∈ ahead → Action.cancel timerId ∉ x.actions := by
        refine forall₂_congr fun x hx => ?_
        rw [List.mem_cons, or_iff_right (hlater x hx)]
      simp only [List.exists_mem_cons_iff, List.forall_mem_cons]
      rw [or_iff_right (fun heq => hne heq.symm), hih, execute_timerMap hdone hne hnew.1, and_assoc,
        hahead]
      exact and_congr_right fun _ => and_congr (by simp [execute]) Iff.rfl

theorem Executes.restarted (h : Executes behave start mgr ids last log) (hids : ids.Nodup)
    {x : Execution κ} (hx : x ∈ log) (hnew : ∀ y ∈ log, x.timerId ∉ y.added) :
    ∃ timer, mgr.timerMap x.timerId = some timer ∧ x.func = timer.func ∧
      x.mgr.timerMap x.timerId = some { timer with timer := start x.timerId } := by
  induction h with
  | nil mgr => exact absurd hx List.not_mem_nil
  | gone _ _ ih => exact ih (List.nodup_cons.mp hids).2 hx hnew
  | @call mgr next last head timer rest log hfind hdone hrun ih =>
    obtain ⟨hhead, hrest⟩ := List.nodup_cons.mp hids
    rw [List.forall_mem_cons] at hnew
    rcases List.mem_cons.mp hx with rfl | hlater
    · exact ⟨timer, hfind, rfl, Function.update_self _ _ _⟩
    · have hne : x.timerId ≠ head := fun heq => hhead (heq ▸ hrun.mem hlater)
      obtain ⟨seen, hseen, hfunc, hclock⟩ := ih hrest hlater hnew.2
      rcases kept_or_added_of_execute hdone hne hseen with hbefore | ⟨hadded, _⟩
      · exact ⟨seen, hbefore, hfunc, hclock⟩
      · exact absurd hadded hnew.1

theorem Executes.kept_or_added (h : Executes behave start mgr ids last log) {timerId : UInt32}
    {kept : Timer κ} (hnot : ∀ x ∈ log, x.timerId ≠ timerId)
    (hlast : last.timerMap timerId = some kept) :
    mgr.timerMap timerId = some kept ∨
      ∃ x ∈ log, timerId ∈ x.added ∧
        Action.addTimer kept.func kept.interval kept.timer ∈ x.actions := by
  induction h with
  | nil mgr => exact Or.inl hlast
  | gone _ _ ih => exact ih hnot hlast
  | @call mgr next last head timer rest log hfind hdone hrun ih =>
    rw [List.forall_mem_cons] at hnot
    rcases ih hnot.2 hlast with hbefore | ⟨x, hx, hadded⟩
    · rcases kept_or_added_of_execute hdone (fun heq => hnot.1 heq.symm) hbefore with
        hkept | hadded
      · exact Or.inl hkept
      · exact Or.inr ⟨_, List.mem_cons_self, hadded⟩
    · exact Or.inr ⟨x, List.mem_cons_of_mem _ hx, hadded⟩

/-- The callbacks leave the table of the scan with the clocks of the executed timers restarted
and their actions done one after the other. -/
theorem Executes.edits_eq (h : Executes behave start mgr ids last log) (hids : ids.Nodup)
    (hnew : ∀ x ∈ log, ∀ timerId ∈ x.added, timerId ∉ ids) :
    edits (restartAll start (log.map Execution.timerId) mgr) (log.flatMap Execution.actions) =
      (last, log.flatMap Execution.added) := by
  induction h with
  | nil mgr => rw [List.map_nil, restartAll_nil]; rfl
  | gone _ _ ih =>
    refine ih (List.nodup_cons.mp hids).2 fun x hx timerId hin hmem => ?_
    exact hnew x hx timerId hin (List.mem_cons_of_mem _ hmem)
  | @call mgr next last head timer rest log hfind hdone hrun ih =>
    obtain ⟨hhead, hrest⟩ := List.nodup_cons.mp hids
    rw [List.forall_mem_cons] at hnew
    have hexecuted := hrun.sublist.subset
    have hlater := ih hrest fun x hx timerId hin hmem =>
      hnew.2 x hx timerId hin (List.mem_cons_of_mem _ hmem)
    have hid : (execute behave start mgr head timer).2.timerId = head := rfl
    simp only [List.map_cons, List.flatMap_cons, hid]
    rw [edits_restartAll_cons hfind hdone _ (fun hmem => hhead (hexecuted hmem))
      (fun timerId hin hmem => hnew.1 timerId hin (List.mem_cons_of_mem _ (hexecuted hmem))),
      hlater]

/-- A callback meets the table of the scan with the clocks restarted up to its own and the actions
of the callbacks before it done. -/
theorem Executes.met (h : Executes behave start mgr ids last log) (hids : ids.Nodup)
    (hnew : ∀ x ∈ log, ∀ timerId ∈ x.added, timerId ∉ ids) {before after : List (Execution κ)}
    {x : Execution κ} (hlog : log = before ++ x :: after) :
    x.mgr = (edits (restartAll start ((before ++ [x]).map Execution.timerId) mgr)
      (before.flatMap Execution.actions)).1 := by
  induction h generalizing before with
  | nil mgr => simp at hlog
  | gone _ _ ih =>
    refine ih (List.nodup_cons.mp hids).2 (fun y hy timerId hin hmem => ?_) hlog
    exact hnew y hy timerId hin (List.mem_cons_of_mem _ hmem)
  | @call mgr next last head timer rest log hfind hdone hrun ih =>
    obtain ⟨hhead, hrest⟩ := List.nodup_cons.mp hids
    cases before with
    | nil =>
      obtain ⟨rfl, _⟩ := List.cons.inj hlog
      have hfirst := restartAll_restart start [] mgr hfind List.not_mem_nil
      rw [restartAll_nil] at hfirst
      exact hfirst
    | cons first before =>
      obtain ⟨rfl, htail⟩ := List.cons.inj hlog
      rw [List.forall_mem_cons] at hnew
      have hlater := ih hrest (fun y hy timerId hin hmem =>
        hnew.2 y hy timerId hin (List.mem_cons_of_mem _ hmem)) htail
      have hexecuted : ∀ timerId ∈ (before ++ [x]).map Execution.timerId, timerId ∈ rest := by
        intro timerId hin
        obtain ⟨y, hy, rfl⟩ := List.mem_map.mp hin
        refine hrun.mem (htail ▸ ?_)
        rcases List.mem_append.mp hy with hbefore | hlast
        · exact List.mem_append_left _ hbefore
        · rw [List.mem_singleton.mp hlast]
          exact List.mem_append_right _ List.mem_cons_self
      have hid : (execute behave start mgr head timer).2.timerId = head := rfl
      simp only [List.cons_append, List.map_cons, List.flatMap_cons, hid]
      rw [edits_restartAll_cons hfind hdone _ (fun hmem => hhead (hexecuted _ hmem))
        (fun timerId hin hmem => hnew.1 timerId hin (List.mem_cons_of_mem _ (hexecuted _ hmem)))]
      exact hlater

theorem Executes.acted (h : Executes behave start mgr ids last log) {x : Execution κ}
    (hx : x ∈ log) : x.actions = behave x.func x.timerId x.mgr := by
  induction h with
  | nil mgr => exact absurd hx List.not_mem_nil
  | gone _ _ ih => exact ih hx
  | call _ _ _ ih =>
    rcases List.mem_cons.mp hx with rfl | hlater
    · rfl
    · exact ih hlater

end Runs

end Tick

/-- The list is one iteration of the table: every identifier in it once. -/
structure Iterates (mgr : TimerMgr κ) (order : List UInt32) : Prop where
  nodup : order.Nodup
  mem_iff : ∀ timerId, timerId ∈ order ↔ mgr.timerMap timerId ≠ none

/-- The timer is in the table and its interval has passed. -/
def Due (elapsed : UInt32 → ℤ) (mgr : TimerMgr κ) (timerId : UInt32) : Prop :=
  ∃ timer, mgr.timerMap timerId = some timer ∧
    (timer.interval.toNat : ℤ) * 1000000 ≤ elapsed timerId

theorem mem_timerNeedToExecute (elapsed : UInt32 → ℤ) (mgr : TimerMgr κ) (order : List UInt32)
    (horder : Iterates mgr order) (timerId : UInt32) :
    timerId ∈ timerNeedToExecute elapsed mgr order ↔ Due elapsed mgr timerId := by
  rw [timerNeedToExecute, List.mem_filter, horder.mem_iff, Due]
  cases mgr.timerMap timerId <;> simp

/-- What a tick owes: the callbacks it ran, in `log`, and the table `last` it leaves. -/
structure Ticked (behave : κ → UInt32 → TimerMgr κ → List (Action κ))
    (start elapsed : UInt32 → ℤ) (mgr : TimerMgr κ) (due : List UInt32) (last : TimerMgr κ)
    (log : List (Execution κ)) : Prop where
  due_iff : ∀ timerId, timerId ∈ due ↔ Due elapsed mgr timerId
  inOrder : (log.map Execution.timerId).Sublist due
  once : (log.map Execution.timerId).Nodup
  executed_iff : ∀ ahead timerId after, due = ahead ++ timerId :: after →
    ((∃ x ∈ log, x.timerId = timerId) ↔
      ∀ x ∈ log, x.timerId ∈ ahead → Action.cancel timerId ∉ x.actions)
  notAdded : ∀ x ∈ log, ∀ y ∈ log, x.timerId ∉ y.added
  restarted : ∀ x ∈ log, ∃ timer, mgr.timerMap x.timerId = some timer ∧ x.func = timer.func ∧
    x.mgr.timerMap x.timerId = some { timer with timer := start x.timerId }
  untouched : ∀ timerId timer, (∀ x ∈ log, x.timerId ≠ timerId) →
    last.timerMap timerId = some timer →
    mgr.timerMap timerId = some timer ∨
      (mgr.timerMap timerId = none ∧ ∃ x ∈ log, timerId ∈ x.added ∧
        Action.addTimer timer.func timer.interval timer.timer ∈ x.actions)
  cancelled : ∀ timerId, mgr.timerMap timerId ≠ none →
    (∃ x ∈ log, Action.cancel timerId ∈ x.actions) → last.timerMap timerId = none
  surviving : ∀ timerId timer, mgr.timerMap timerId = some timer →
    (∀ x ∈ log, Action.cancel timerId ∉ x.actions) →
    last.timerMap timerId =
      some (if timerId ∈ log.map Execution.timerId then { timer with timer := start timerId }
        else timer)
  acted : ∀ x ∈ log, x.actions = behave x.func x.timerId x.mgr
  met : ∀ before x after, log = before ++ x :: after →
    x.mgr = (edits (restartAll start ((before ++ [x]).map Execution.timerId) mgr)
      (before.flatMap Execution.actions)).1
  edited : edits (restartAll start (log.map Execution.timerId) mgr)
    (log.flatMap Execution.actions) = (last, log.flatMap Execution.added)

theorem Executes.ticked {behave : κ → UInt32 → TimerMgr κ → List (Action κ)}
    {start elapsed : UInt32 → ℤ} {mgr last : TimerMgr κ} {due : List UInt32}
    {log : List (Execution κ)} (h : Executes behave start mgr due last log) (hnodup : due.Nodup)
    (hdue : ∀ timerId, timerId ∈ due ↔ Due elapsed mgr timerId)
    (hfresh : ∀ x ∈ log, ∀ timerId ∈ x.added, mgr.timerMap timerId = none) :
    Ticked behave start elapsed mgr due last log := by
  have hpresent : ∀ timerId ∈ due, mgr.timerMap timerId ≠ none := by
    intro timerId hmem
    obtain ⟨timer, hfind, _⟩ := (hdue timerId).mp hmem
    simp [hfind]
  have hnew : ∀ timerId, mgr.timerMap timerId ≠ none → ∀ x ∈ log, timerId ∉ x.added :=
    fun timerId hin x hx hadded => hin (hfresh x hx timerId hadded)
  have hout : ∀ x ∈ log, ∀ timerId ∈ x.added, timerId ∉ due := fun x hx timerId hadded hmem =>
    hpresent timerId hmem (hfresh x hx timerId hadded)
  have hedited := h.edits_eq hnodup hout
  have hmap : ∀ timerId, mgr.timerMap timerId ≠ none →
      (Action.cancel timerId ∈ log.flatMap Execution.actions → last.timerMap timerId = none) ∧
      (Action.cancel timerId ∉ log.flatMap Execution.actions → last.timerMap timerId =
        (restartAll start (log.map Execution.timerId) mgr).timerMap timerId) := by
    intro timerId hin
    have hkept := edits_timerMap timerId (log.flatMap Execution.actions)
      (restartAll start (log.map Execution.timerId) mgr)
    rw [hedited] at hkept
    refine hkept fun hadded => ?_
    obtain ⟨x, hx, hmem⟩ := List.mem_flatMap.mp hadded
    exact hnew timerId hin x hx hmem
  refine ⟨hdue, h.sublist, h.sublist.nodup hnodup, ?_, ?_, ?_, ?_, ?_, ?_, fun x => h.acted,
    fun before x after hlog => h.met hnodup hout hlog, hedited⟩
  · intro ahead timerId after hsplit
    have hin : mgr.timerMap timerId ≠ none := by
      refine hpresent timerId ?_
      rw [hsplit]
      exact List.mem_append_right ahead List.mem_cons_self
    have hiff := h.executed_iff hnodup ahead timerId after hsplit (hnew timerId hin)
    exact hiff.trans (and_iff_right hin)
  · exact fun x hx => hnew x.timerId (hpresent _ (h.mem hx))
  · exact fun x hx => h.restarted hnodup hx (hnew x.timerId (hpresent _ (h.mem hx)))
  · intro timerId timer hnot hlast
    rcases h.kept_or_added hnot hlast with hkept | ⟨x, hx, hadded, haction⟩
    · exact Or.inl hkept
    · exact Or.inr ⟨hfresh x hx timerId hadded, x, hx, hadded, haction⟩
  · rintro timerId hin ⟨x, hx, hcancel⟩
    exact (hmap timerId hin).1 (List.mem_flatMap.mpr ⟨x, hx, hcancel⟩)
  · intro timerId timer hfind hnone
    have hin : mgr.timerMap timerId ≠ none := by simp [hfind]
    have hnot : Action.cancel timerId ∉ log.flatMap Execution.actions := by
      intro hmem
      obtain ⟨x, hx, hcancel⟩ := List.mem_flatMap.mp hmem
      exact hnone x hx hcancel
    rw [(hmap timerId hin).2 hnot]
    simp only [restartAll, hfind, Option.map_some]

/-- Whatever the callbacks do to the table, a tick runs each timer that was due at the scan and
not cancelled before its turn, once, on a restarted clock, touches no other clock and leaves the
table as the callbacks edited it, exactly if no callback that it calls does anything after
cancelling its own timer. -/
theorem logicTimerFunc_ticked_iff (behave : κ → UInt32 → TimerMgr κ → List (Action κ))
    (start elapsed : UInt32 → ℤ) (mgr : TimerMgr κ) (order : List UInt32)
    (horder : Iterates mgr order)
    (hfresh : ∀ x ∈ (logicTimerFunc behave start elapsed mgr order).2, ∀ timerId ∈ x.added,
      mgr.timerMap timerId = none) :
    (∃ last, (logicTimerFunc behave start elapsed mgr order).1 = some last ∧
      Ticked behave start elapsed mgr (timerNeedToExecute elapsed mgr order) last
        (logicTimerFunc behave start elapsed mgr order).2) ↔
    ∀ x ∈ (logicTimerFunc behave start elapsed mgr order).2, Careful x.timerId x.actions := by
  have hdue := mem_timerNeedToExecute elapsed mgr order horder
  have hnodup : (timerNeedToExecute elapsed mgr order).Nodup := horder.nodup.filter _
  have hown : ∀ x ∈ (logicTimerFunc behave start elapsed mgr order).2, x.timerId ∉ x.added := by
    intro x hx hadded
    obtain ⟨timer, hfind, _⟩ := (hdue x.timerId).mp (executed_mem behave start _ mgr x hx)
    rw [hfresh x hx x.timerId hadded] at hfind
    cases hfind
  have hiff := executeTimers_ne_none_iff behave start (timerNeedToExecute elapsed mgr order) mgr
    hown
  constructor
  · rintro ⟨last, hlast, _⟩
    refine hiff.mp ?_
    change (logicTimerFunc behave start elapsed mgr order).1 ≠ none
    simp [hlast]
  · intro hcareful
    obtain ⟨last, hlast⟩ := Option.ne_none_iff_exists'.mp (hiff.mpr hcareful)
    exact ⟨last, hlast, (executes_of_eq_some behave start _ mgr last hlast).ticked hnodup hdue
      hfresh⟩

def twoTimers : TimerMgr Bool where
  timerId := 9
  timerMap timerId :=
    if timerId = 1 then some ⟨5, true, 0⟩ else if timerId = 2 then some ⟨5, false, 0⟩ else none

/-- A callback that cancels the next timer, adds one and cancels itself. -/
def cancelNext : Bool → UInt32 → TimerMgr Bool → List (Action Bool)
  | true, timerId, _ => [.cancel (timerId + 1), .addTimer false 1 7, .cancel timerId]
  | false, _, _ => []

theorem twoTimers_iterates : Iterates twoTimers [1, 2] := by
  refine ⟨by decide, fun timerId => ?_⟩
  by_cases hone : timerId = 1
  · subst hone
    decide
  · by_cases htwo : timerId = 2
    · subst htwo
      decide
    · simp [twoTimers, hone, htwo]

/-- The callback runs, the timer that it has cancelled does not. -/
theorem logicTimerFunc_ticked_twoTimers :
    (logicTimerFunc cancelNext (fun _ => 6) (fun _ => 5000000) twoTimers [1, 2]).2.map
        Execution.timerId = [1] ∧
      ∃ last, (logicTimerFunc cancelNext (fun _ => 6) (fun _ => 5000000) twoTimers [1, 2]).1 =
          some last ∧
        Ticked cancelNext (fun _ => 6) (fun _ => 5000000) twoTimers
          (timerNeedToExecute (fun _ => 5000000) twoTimers [1, 2]) last
          (logicTimerFunc cancelNext (fun _ => 6) (fun _ => 5000000) twoTimers [1, 2]).2 := by
  have hadded : (logicTimerFunc cancelNext (fun _ => 6) (fun _ => 5000000) twoTimers
      [1, 2]).2.map Execution.added = [[9]] := rfl
  have hactions : (logicTimerFunc cancelNext (fun _ => 6) (fun _ => 5000000) twoTimers
      [1, 2]).2.map (fun x => (x.timerId, x.actions)) =
        [(1, [.cancel 2, .addTimer false 1 7, .cancel 1])] := rfl
  refine ⟨rfl, (logicTimerFunc_ticked_iff cancelNext (fun _ => 6) (fun _ => 5000000) twoTimers
    [1, 2] twoTimers_iterates ?_).mpr ?_⟩
  · intro x hx timerId hid
    have hmem := List.mem_map_of_mem (f := Execution.added) hx
    rw [hadded, List.mem_singleton] at hmem
    rw [hmem, List.mem_singleton] at hid
    rw [hid]
    rfl
  · intro x hx
    have hmem := List.mem_map_of_mem (f := fun x => (x.timerId, x.actions)) hx
    rw [hactions, List.mem_singleton, Prod.mk.injEq] at hmem
    rw [hmem.1, hmem.2]
    rw [careful_cons, careful_cons, careful_cons]
    simp [Careful]

/-- A callback that cancels its own timer and then adds another one. -/
def cancelOwn : Bool → UInt32 → TimerMgr Bool → List (Action Bool)
  | true, timerId, _ => [.cancel timerId, .addTimer true 5 7]
  | false, _, _ => []

/-- The callback of timer 1 goes on in the function that it has destroyed. The identifier it
asks for is free. -/
theorem self_cancel_undefined :
    Iterates twoTimers [1, 2] ∧
      (logicTimerFunc cancelOwn (fun _ => 6) (fun _ => 5000000) twoTimers [1, 2]).1 = none ∧
      (logicTimerFunc cancelOwn (fun _ => 6) (fun _ => 5000000) twoTimers [1, 2]).2.map
          (fun x => (x.timerId, x.actions, x.added)) =
        [(1, [.cancel 1, .addTimer true 5 7], [])] ∧
      ¬ Careful 1 [Action.cancel 1, .addTimer true 5 7] := by
  refine ⟨twoTimers_iterates, rfl, rfl, fun hcareful => ?_⟩
  cases hcareful [] [.addTimer true 5 7] rfl

end BlackCat.Timers
