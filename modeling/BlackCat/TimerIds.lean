import BlackCat.Runs
import BlackCat.TimerMgr
import Mathlib.Data.Nat.Notation

/-!
The identifiers of timers over whole runs of `AddTimer` and `Cancel`. The
counter is 32 bits wide, is not set by the constructor and is never compared
with the table. A timer is safe from the timers added after it as long as there
are fewer than 2^32 of them; the next one gets its identifier and takes its
place in the table.
-/
namespace BlackCat.Timers

open Runs

/-- A timer that was added, with the number of timers added before it. -/
structure Entry (κ : Type*) where
  serial : ℕ
  timerId : UInt32
  interval : UInt32
  func : κ

/-- A manager with the number of timers added so far and those not cancelled since. -/
structure Ledger (κ : Type*) where
  mgr : TimerMgr κ
  count : ℕ
  live : List (Entry κ)

variable {κ : Type*}

/-- A new manager: the counter holds any value. -/
def fresh (first : UInt32) : Ledger κ := ⟨⟨first, fun _ => none⟩, 0, []⟩

def step (s : Ledger κ) : Action κ → Option (Ledger κ)
  | .addTimer func interval now =>
    let added := addTimer s.mgr func interval now
    some ⟨added.2, s.count + 1, ⟨s.count, added.1, interval, func⟩ :: s.live⟩
  | .cancel timerId =>
    some ⟨cancel s.mgr timerId, s.count, s.live.filter (·.timerId ≠ timerId)⟩

/-- The identifier that a new timer gets is not in the table. -/
def AddsFree (s : Ledger κ) : Action κ → Prop
  | .addTimer func interval now =>
    s.mgr.timerMap (addTimer s.mgr func interval now).1 = none
  | .cancel _ => True

/-- Every timer added and not cancelled is in the table with its interval and callback. -/
def Intact (s : Ledger κ) : Prop :=
  ∀ e ∈ s.live, ∃ now, s.mgr.timerMap e.timerId = some ⟨e.interval, e.func, now⟩

/-- When a timer is added, fewer than 2^32 were added since any that is not cancelled. -/
def Young (s : Ledger κ) : Action κ → Prop
  | .addTimer _ _ _ => ∀ e ∈ s.live, s.count < e.serial + 4294967296
  | .cancel _ => True

theorem ofNat_eq_iff_of_le {a b : ℕ} (hlt : a < b) (hle : b ≤ a + 4294967296) :
    UInt32.ofNat a = UInt32.ofNat b ↔ b = a + 4294967296 := by
  rw [← UInt32.toNat_inj, UInt32.toNat_ofNat', UInt32.toNat_ofNat']
  omega

/-- The counter and the identifiers in use are the serial numbers modulo 2^32. -/
structure Numbered (first : UInt32) (s : Ledger κ) : Prop where
  counter : s.mgr.timerId = first + UInt32.ofNat s.count
  ids : ∀ e ∈ s.live, e.timerId = first + UInt32.ofNat e.serial
  earlier : ∀ e ∈ s.live, e.serial < s.count
  recent : ∀ e ∈ s.live, s.count ≤ e.serial + 4294967296
  intact : Intact s
  listed : ∀ timerId, s.mgr.timerMap timerId ≠ none → ∃ e ∈ s.live, e.timerId = timerId

theorem numbered_fresh (first : UInt32) : Numbered first (fresh first : Ledger κ) where
  counter := by simp [fresh]
  ids := by simp [fresh]
  earlier := by simp [fresh]
  recent := by simp [fresh]
  intact := by simp [fresh, Intact]
  listed := by simp [fresh]

theorem Numbered.timerId_eq_iff {first : UInt32} {s : Ledger κ} (h : Numbered first s)
    {e : Entry κ} (he : e ∈ s.live) :
    e.timerId = s.mgr.timerId ↔ s.count = e.serial + 4294967296 := by
  rw [h.counter, h.ids e he, UInt32.add_right_inj]
  exact ofNat_eq_iff_of_le (h.earlier e he) (h.recent e he)

theorem Numbered.ne_of_young {first : UInt32} {s : Ledger κ} (h : Numbered first s)
    (hyoung : ∀ e ∈ s.live, s.count < e.serial + 4294967296) {e : Entry κ} (he : e ∈ s.live) :
    e.timerId ≠ s.mgr.timerId := by
  intro heq
  have hcount := (h.timerId_eq_iff he).mp heq
  have hlt := hyoung e he
  omega

theorem Numbered.addsFree {first : UInt32} {s : Ledger κ} (h : Numbered first s) (e : Action κ)
    (hyoung : Young s e) : AddsFree s e := by
  cases e with
  | cancel timerId => trivial
  | addTimer func interval now =>
    by_contra hused
    obtain ⟨e, he, heq⟩ := h.listed _ hused
    exact h.ne_of_young hyoung he heq

theorem Numbered.addTimer {first : UInt32} {s t : Ledger κ} (h : Numbered first s) {func : κ}
    {interval : UInt32} {now : ℤ} (hyoung : Young s (.addTimer func interval now))
    (hstep : step s (.addTimer func interval now) = some t) : Numbered first t := by
  cases hstep
  refine ⟨?_, ?_, ?_, ?_, ?_, ?_⟩
  · simp only [Timers.addTimer, h.counter, UInt32.ofNat_add, UInt32.add_assoc]
    rfl
  · exact List.forall_mem_cons.mpr ⟨h.counter, h.ids⟩
  · refine List.forall_mem_cons.mpr ⟨Nat.lt_succ_self _, fun e he => ?_⟩
    exact Nat.lt_succ_of_lt (h.earlier e he)
  · exact List.forall_mem_cons.mpr ⟨Nat.add_le_add_left (by decide) _, hyoung⟩
  · refine List.forall_mem_cons.mpr ⟨⟨now, Function.update_self _ _ _⟩, fun e he => ?_⟩
    obtain ⟨since, hfind⟩ := h.intact e he
    exact ⟨since, (Function.update_of_ne (h.ne_of_young hyoung he) _ _).trans hfind⟩
  · intro timerId hused
    by_cases hid : timerId = s.mgr.timerId
    · exact ⟨_, List.mem_cons_self, hid.symm⟩
    · simp only [Timers.addTimer, Function.update_of_ne hid] at hused
      obtain ⟨e, he, heq⟩ := h.listed timerId hused
      exact ⟨e, List.mem_cons_of_mem _ he, heq⟩

theorem Numbered.cancel {first : UInt32} {s t : Ledger κ} (h : Numbered first s)
    {timerId : UInt32} (hstep : step s (.cancel timerId) = some t) : Numbered first t := by
  cases hstep
  have hmem : ∀ e ∈ s.live.filter (·.timerId ≠ timerId), e ∈ s.live ∧ e.timerId ≠ timerId := by
    intro e he
    simpa using he
  refine ⟨h.counter, ?_, ?_, ?_, ?_, ?_⟩
  · exact fun e he => h.ids e (hmem e he).1
  · exact fun e he => h.earlier e (hmem e he).1
  · exact fun e he => h.recent e (hmem e he).1
  · intro e he
    obtain ⟨since, hfind⟩ := h.intact e (hmem e he).1
    exact ⟨since, (Function.update_of_ne (hmem e he).2 _ _).trans hfind⟩
  · intro other hused
    have hne : other ≠ timerId := by
      rintro rfl
      exact hused (Function.update_self _ _ _)
    simp only [Timers.cancel, Function.update_of_ne hne] at hused
    obtain ⟨e, he, rfl⟩ := h.listed other hused
    exact ⟨e, by simpa using ⟨he, hne⟩, rfl⟩

theorem Numbered.keep {first : UInt32} (s : Ledger κ) (e : Action κ) (t : Ledger κ)
    (h : Numbered first s) (hyoung : Young s e) (hstep : step s e = some t) :
    Numbered first t := by
  cases e with
  | addTimer func interval now => exact h.addTimer hyoung hstep
  | cancel timerId => exact h.cancel hstep

theorem exists_run (s : Ledger κ) (events : List (Action κ)) :
    ∃ t, run step s events = some t := by
  induction events generalizing s with
  | nil => exact ⟨s, rfl⟩
  | cons e rest ih =>
    cases e with
    | addTimer func interval now => exact ih _
    | cancel timerId => exact ih _

/-- New timers get unused identifiers and no timer is displaced, throughout a run, exactly when
no timer outlives 2^32 additions. -/
theorem timers_kept_iff (first : UInt32) (events : List (Action κ)) :
    (Always step (fun s e => AddsFree s e ∧ Intact s) (fresh first) events ∧
      ∀ s, run step (fresh first) events = some s → Intact s) ↔
    Always step Young (fresh first) events := by
  constructor
  · rintro ⟨hgood, _⟩
    by_contra hold
    obtain ⟨last, hlast⟩ := exists_run (fresh first) events
    obtain ⟨before, e, after, u, v, rfl, hbefore, hyoung, hbad, _, _⟩ :=
      exists_first_break hlast hold
    have hnum := invariant Numbered.keep (numbered_fresh first) hyoung hbefore
    have hfree := ((always_append hbefore).mp hgood).2.1.1
    cases e with
    | cancel timerId => exact hbad trivial
    | addTimer func interval now =>
      simp only [Young, not_forall, not_lt] at hbad
      obtain ⟨e, he, hcount⟩ := hbad
      have heq := (hnum.timerId_eq_iff he).mpr (Nat.le_antisymm (hnum.recent e he) hcount)
      obtain ⟨since, hfind⟩ := hnum.intact e he
      rw [heq] at hfind
      simp [AddsFree, Timers.addTimer, hfind] at hfree
  · intro hyoung
    refine ⟨?_, ?_⟩
    · exact hyoung.imp_of_invariant Numbered.keep
        (fun s e hnum hok => ⟨hnum.addsFree e hok, hnum.intact⟩) (numbered_fresh first)
    · intro s hrun
      exact (invariant Numbered.keep (numbered_fresh first) hyoung hrun).intact

theorem run_add_cancel (s : Ledger κ) (func : κ) (interval : UInt32) (now : ℤ)
    (hfree : s.mgr.timerMap s.mgr.timerId = none)
    (hlive : ∀ e ∈ s.live, e.timerId ≠ s.mgr.timerId) :
    run step s [.addTimer func interval now, .cancel s.mgr.timerId] =
      some ⟨⟨s.mgr.timerId + 1, s.mgr.timerMap⟩, s.count + 1, s.live⟩ := by
  have htable : Function.update s.mgr.timerMap s.mgr.timerId none = s.mgr.timerMap := by
    rw [← hfree, Function.update_eq_self]
  have hkept : s.live.filter (fun e => decide (¬ e.timerId = s.mgr.timerId)) = s.live := by
    rw [List.filter_eq_self]
    exact fun e he => decide_eq_true (hlive e he)
  simp only [run, step, addTimer, cancel, Option.bind_some, Function.update_idem, htable,
    List.filter_cons, ne_eq, not_true_eq_false, decide_false, Bool.false_eq_true, if_false, hkept]

/-- Timers that are added and cancelled one after the other. -/
def churn (n : ℕ) : List (Action Bool) :=
  (List.range n).flatMap fun k => [.addTimer false 1 0, .cancel (UInt32.ofNat (k + 1))]

/-- A manager whose first timer has seen a number of others come and go. -/
def churned (n : ℕ) : Ledger Bool where
  mgr := ⟨UInt32.ofNat (n + 1), Function.update (fun _ => none) 0 (some ⟨1000, true, 0⟩)⟩
  count := n + 1
  live := [⟨0, 0, 1000, true⟩]

theorem run_churn (n : ℕ) (hn : n < 4294967296) :
    run step (churned 0) (churn n) = some (churned n) := by
  induction n with
  | zero => rfl
  | succ n ih =>
    have hne : UInt32.ofNat (n + 1) ≠ 0 := by
      intro h
      have hnat := congrArg UInt32.toNat h
      rw [UInt32.toNat_ofNat_of_lt' hn] at hnat
      exact Nat.succ_ne_zero n hnat
    have hpair : churn (n + 1) =
        churn n ++ [.addTimer false 1 0, .cancel (churned n).mgr.timerId] := by
      rw [churn, List.range_succ, List.flatMap_append]
      rfl
    have hfree : (churned n).mgr.timerMap (churned n).mgr.timerId = none := by
      simp only [churned, Function.update_of_ne hne]
    have hlive : ∀ e ∈ (churned n).live, e.timerId ≠ (churned n).mgr.timerId := by
      intro e he
      rw [List.mem_singleton.mp he]
      exact hne.symm
    rw [hpair, run_append_of_run (ih (Nat.lt_of_succ_lt hn)),
      run_add_cancel (churned n) false 1 0 hfree hlive]
    simp only [churned, UInt32.ofNat_add]
    rfl

/-- A timer outlives 2^32 - 1 others, and the next one is put in its place. -/
theorem long_lived_timer_displaced :
    ∃ s, run step (fresh 0)
        (.addTimer true 1000 0 :: (churn 4294967295 ++ [.addTimer false 1 0])) = some s ∧
      ⟨0, 0, 1000, true⟩ ∈ s.live ∧ s.mgr.timerMap 0 = some ⟨1, false, 0⟩ ∧ ¬ Intact s := by
  have hwrap : (churned 4294967295).mgr.timerId = 0 := rfl
  obtain ⟨s, hs⟩ := exists_run (churned 4294967295) [.addTimer false 1 0]
  have hrun : run step (fresh 0)
      (.addTimer true 1000 0 :: (churn 4294967295 ++ [.addTimer false 1 0])) = some s := by
    have hfirst : step (fresh 0) (.addTimer true 1000 0) = some (churned 0) := rfl
    refine run_cons hfirst ?_
    rw [run_append_of_run (run_churn 4294967295 (by decide)), hs]
  have hlive : (⟨0, 0, 1000, true⟩ : Entry Bool) ∈ s.live := by
    cases hs
    exact List.mem_cons_of_mem _ List.mem_cons_self
  have htable : s.mgr.timerMap 0 = some ⟨1, false, 0⟩ := by
    cases hs
    simp only [addTimer, hwrap, Function.update_self]
  refine ⟨s, hrun, hlive, htable, ?_⟩
  intro hintact
  obtain ⟨now, hfind⟩ := hintact _ hlive
  simp [htable] at hfind

end BlackCat.Timers
