import BlackCat.RequestReply

/-!
Tickets of the request-reply service, all queues taken together. A call adds
one, completing a call removes it, and every other step only moves one. So an
open entry always has exactly one ticket, and there is no ticket without one.
-/
namespace BlackCat.RequestReply

open Queues

variable {P σ ι κ : Type*} [DecidableEq σ] [DecidableEq ι] [Fintype P]
variable (name : P → σ) (service : κ → σ)

def tickets (s : State P σ ι κ) : Multiset (Ticket σ ι) :=
  total s.asking + total s.serving + total s.answered

omit [DecidableEq σ] [DecidableEq ι] in
theorem mem_tickets (s : State P σ ι κ) (t : Ticket σ ι) :
    t ∈ tickets s ↔ ∃ p, t ∈ s.asking p ∨ t ∈ s.serving p ∨ t ∈ s.answered p := by
  simp only [tickets, Multiset.mem_add, mem_total, exists_or, or_assoc]

/-- An open entry has one ticket, for its service; other tickets do not exist. -/
def Tokens (s : State P σ ι κ) : Prop :=
  ∀ A n id, (tickets s).count ⟨name A, n, id⟩ =
    if (s.pending A id).map service = some n then 1 else 0

variable {name service}

theorem Tokens.pending {s : State P σ ι κ} (h : Tokens name service s) {A : P} {n : σ} {id : ι}
    (hmem : (⟨name A, n, id⟩ : Ticket σ ι) ∈ tickets s) :
    (s.pending A id).map service = some n := by
  by_contra hnot
  have hcount := h A n id
  rw [if_neg hnot] at hcount
  exact absurd hmem (Multiset.count_eq_zero.mp hcount)

theorem Tokens.count_key {s : State P σ ι κ} (h : Tokens name service s) (A : P) (id : ι) :
    ((tickets s).map fun t => (t.requestor, t.id)).count (name A, id) =
      if (s.pending A id).isSome then 1 else 0 := by
  have hservice : ∀ t ∈ tickets s, (name A, id) = (t.requestor, t.id) →
      (s.pending A id).map service = some t.service := by
    intro t ht heq
    obtain ⟨hA, hid⟩ := Prod.mk.inj heq
    apply h.pending
    rw [hA, hid]
    exact ht
  rw [Multiset.count_map]
  cases hk : s.pending A id with
  | none =>
    rw [hk] at hservice
    have hempty : (tickets s).filter (fun t => (name A, id) = (t.requestor, t.id)) = 0 := by
      apply Multiset.filter_eq_nil.mpr
      intro t ht heq
      cases hservice t ht heq
    rw [hempty]
    rfl
  | some k =>
    rw [hk] at hservice
    have hone : (tickets s).filter (fun t => (name A, id) = (t.requestor, t.id)) =
        (tickets s).filter (fun t => (⟨name A, service k, id⟩ : Ticket σ ι) = t) := by
      apply Multiset.filter_congr
      intro t ht
      constructor
      · intro heq
        obtain ⟨hA, hid⟩ := Prod.mk.inj heq
        have hk' := Option.some.inj (hservice t ht heq)
        rw [hA, hid, hk']
      · rintro rfl
        rfl
    have hcount := h A (service k) id
    rw [hk, Multiset.count_eq_card_filter_eq] at hcount
    rw [hone, hcount]
    simp

/-- A ticket that is back finds its entry open, for the service it was sent to. -/
theorem Tokens.exists_pending {s : State P σ ι κ} (h : Tokens name service s)
    (hplaced : Placed name s) {A : P} {t : Ticket σ ι} {rest : List (Ticket σ ι)}
    (hq : s.answered A = t :: rest) : ∃ k, s.pending A t.id = some k ∧ service k = t.service := by
  have hfirst : t ∈ s.answered A := hq ▸ List.mem_cons_self ..
  have hmem : (⟨name A, t.service, t.id⟩ : Ticket σ ι) ∈ tickets s := by
    rw [← hplaced.answered A t hfirst, mem_tickets]
    exact ⟨A, Or.inr (Or.inr hfirst)⟩
  exact Option.map_eq_some_iff.mp (h.pending hmem)

variable [DecidableEq P]

theorem Tokens.step_call {s : State P σ ι κ} (h : Tokens name service s)
    (hname : Function.Injective name) (A : P) (id : ι) (k : κ) (hfree : s.pending A id = none)
    (all : Multiset (Ticket σ ι)) (hall : all = ⟨name A, service k, id⟩ ::ₘ tickets s)
    (B : P) (n : σ) (i : ι) :
    all.count ⟨name B, n, i⟩ =
      if (setPending s.pending A id (some k) B i).map service = some n then 1 else 0 := by
  have hold := h B n i
  rw [hall, Multiset.count_cons, hold]
  by_cases hsame : B = A ∧ i = id
  · obtain ⟨rfl, rfl⟩ := hsame
    simp [hfree, eq_comm]
  · have hne : (⟨name B, n, i⟩ : Ticket σ ι) ≠ ⟨name A, service k, id⟩ := by
      intro heq
      obtain ⟨hB, _, hi⟩ := Ticket.mk.inj heq
      exact hsame ⟨hname hB, hi⟩
    rw [setPending_of_ne _ _ _ _ _ _ (not_and_or.mp hsame), if_neg hne, Nat.add_zero]

theorem Tokens.step_deliver {s : State P σ ι κ} (h : Tokens name service s)
    (hname : Function.Injective name) (A : P) (t : Ticket σ ι) (ht : t.requestor = name A)
    (left : Multiset (Ticket σ ι)) (hall : tickets s = t ::ₘ left) (B : P) (n : σ) (i : ι) :
    left.count ⟨name B, n, i⟩ =
      if (setPending s.pending A t.id none B i).map service = some n then 1 else 0 := by
  obtain ⟨requestor, asked, id⟩ := t
  simp only at ht
  subst requestor
  have hold := h B n i
  rw [hall, Multiset.count_cons] at hold
  by_cases hsame : B = A ∧ i = id
  · obtain ⟨rfl, rfl⟩ := hsame
    have hopen := h.pending (hall ▸ Multiset.mem_cons_self _ _)
    rw [hopen] at hold
    simp only [setPending_self, Option.map_none, reduceCtorEq, if_false]
    by_cases hn : n = asked
    · subst n
      simpa using hold
    · have hne : asked ≠ n := fun heq => hn heq.symm
      simpa [hn, hne] using hold
  · have hne : (⟨name B, n, i⟩ : Ticket σ ι) ≠ ⟨name A, asked, id⟩ := by
      intro heq
      obtain ⟨hB, _, hi⟩ := Ticket.mk.inj heq
      exact hsame ⟨hname hB, hi⟩
    rw [if_neg hne, Nat.add_zero] at hold
    rw [setPending_of_ne _ _ _ _ _ _ (not_and_or.mp hsame), hold]

theorem Tokens.step_refuse {s : State P σ ι κ} (h : Tokens name service s) (A : P)
    (t : Ticket σ ι) (rest : List (Ticket σ ι)) (hq : s.asking A = t :: rest) :
    Tokens name service (s.refuse A t rest) := by
  intro B n i
  rw [State.refuse, ← h B n i]
  simp only [tickets, total_put, total_pop s.asking A t rest hq, Multiset.add_cons,
    Multiset.cons_add]

theorem Tokens.step {s s' : State P σ ι κ} (h : Tokens name service s)
    (hname : Function.Injective name) (hplaced : Placed name s)
    (hstep : Step name service s s') : Tokens name service s' := by
  cases hstep with
  | call A id k hfree _ =>
    apply h.step_call hname A id k hfree
    simp only [tickets, State.call, total_put, Multiset.cons_add]
  | accept A S t rest hq _ =>
    intro B n i
    rw [State.accept, ← h B n i]
    simp only [tickets, total_put, total_pop s.asking A t rest hq, Multiset.add_cons,
      Multiset.cons_add]
  | refuse A t rest hq _ => exact h.step_refuse A t rest hq
  | reply A S t rest hq _ =>
    intro B n i
    rw [State.reply, ← h B n i]
    simp only [tickets, total_put, total_pop s.serving S t rest hq, Multiset.add_cons,
      Multiset.cons_add]
  | deliver A t rest k hq _ =>
    have ht := hplaced.answered A t (hq ▸ List.mem_cons_self ..)
    apply h.step_deliver hname A t ht
    rw [tickets, tickets, total_pop s.answered A t rest hq, Multiset.add_cons]
    rfl

end BlackCat.RequestReply
