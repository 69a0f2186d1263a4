import BlackCat.Queues

/-!
A request-reply service over queues. A caller opens an entry for each call and
sends a ticket. The ticket waits at the caller's end, then with the service it
is for, and then on its way back; a service that has nothing in hand may be
passed over. Every ticket stands where its names say, and every call is
completed at most once. RequestTokens and RequestOrder add that an open entry
has exactly one ticket and that calls are completed in order.
-/
namespace BlackCat.RequestReply

open Queues

/-- Who asks, which service, and under which id the entry is open. -/
structure Ticket (σ ι : Type*) where
  requestor : σ
  service : σ
  id : ι
  deriving DecidableEq

@[ext]
structure State (P σ ι κ : Type*) where
  asking : P → List (Ticket σ ι)
  serving : P → List (Ticket σ ι)
  answered : P → List (Ticket σ ι)
  pending : P → ι → Option κ
  calls : P → List κ
  invoked : P → List κ

def State.party {P σ ι κ : Type*} (s : State P σ ι κ) (p : P) :
    List (Ticket σ ι) × List (Ticket σ ι) × List (Ticket σ ι) ×
      (ι → Option κ) × List κ × List κ :=
  (s.asking p, s.serving p, s.answered p, s.pending p, s.calls p, s.invoked p)

theorem State.ext_party {P σ ι κ : Type*} {s t : State P σ ι κ}
    (h : ∀ p, s.party p = t.party p) : s = t := by
  simp only [State.party, Prod.mk.injEq] at h
  ext1
  · exact funext fun p => (h p).1
  · exact funext fun p => (h p).2.1
  · exact funext fun p => (h p).2.2.1
  · exact funext fun p => (h p).2.2.2.1
  · exact funext fun p => (h p).2.2.2.2.1
  · exact funext fun p => (h p).2.2.2.2.2

variable {P σ ι κ : Type*} [DecidableEq P] [DecidableEq ι]

def initial : State P σ ι κ where
  asking _ := []
  serving _ := []
  answered _ := []
  pending _ _ := none
  calls _ := []
  invoked _ := []

/-- The entry id of caller A, set to the given content. -/
def setPending (pending : P → ι → Option κ) (A : P) (id : ι) (entry : Option κ) :
    P → ι → Option κ :=
  Function.update pending A (Function.update (pending A) id entry)

variable (name : P → σ) (service : κ → σ)

/-- A call opens an entry and sends its ticket. -/
def State.call (s : State P σ ι κ) (A : P) (id : ι) (k : κ) : State P σ ι κ :=
  { s with
    asking := put s.asking A ⟨name A, service k, id⟩
    pending := setPending s.pending A id (some k)
    calls := put s.calls A k }

/-- The first ticket of A is handed to S. -/
def State.accept (s : State P σ ι κ) (A S : P) (t : Ticket σ ι) (rest : List (Ticket σ ι)) :
    State P σ ι κ :=
  { s with
    asking := Function.update s.asking A rest
    serving := put s.serving S t }

/-- The first ticket of A is sent back at once. -/
def State.refuse (s : State P σ ι κ) (A : P) (t : Ticket σ ι) (rest : List (Ticket σ ι)) :
    State P σ ι κ :=
  { s with
    asking := Function.update s.asking A rest
    answered := put s.answered A t }

/-- The first ticket of S is sent back to A. -/
def State.reply (s : State P σ ι κ) (A S : P) (t : Ticket σ ι) (rest : List (Ticket σ ι)) :
    State P σ ι κ :=
  { s with
    serving := Function.update s.serving S rest
    answered := put s.answered A t }

/-- A ticket that is back completes the call k of A. -/
def State.deliver (s : State P σ ι κ) (A : P) (t : Ticket σ ι) (rest : List (Ticket σ ι))
    (k : κ) : State P σ ι κ :=
  { s with
    answered := Function.update s.answered A rest
    pending := setPending s.pending A t.id none
    invoked := put s.invoked A k }

inductive Step (s : State P σ ι κ) : State P σ ι κ → Prop
  | call (A : P) (id : ι) (k : κ) : s.pending A id = none → k ∉ s.calls A →
      Step s (s.call name service A id k)
  | accept (A S : P) (t : Ticket σ ι) (rest : List (Ticket σ ι)) :
      s.asking A = t :: rest → name S = t.service → Step s (s.accept A S t rest)
  | refuse (A : P) (t : Ticket σ ι) (rest : List (Ticket σ ι)) :
      s.asking A = t :: rest → (∀ S, name S = t.service → s.serving S = []) →
      Step s (s.refuse A t rest)
  | reply (A S : P) (t : Ticket σ ι) (rest : List (Ticket σ ι)) :
      s.serving S = t :: rest → name A = t.requestor → Step s (s.reply A S t rest)
  | deliver (A : P) (t : Ticket σ ι) (rest : List (Ticket σ ι)) (k : κ) :
      s.answered A = t :: rest → s.pending A t.id = some k → Step s (s.deliver A t rest k)

inductive Reachable : State P σ ι κ → Prop
  | initial : Reachable initial
  | step {s t : State P σ ι κ} : Reachable s → Step name service s t → Reachable t

@[simp]
theorem setPending_self (pending : P → ι → Option κ) (A : P) (id : ι) (entry : Option κ) :
    setPending pending A id entry A id = entry := by
  simp [setPending]

theorem setPending_of_ne (pending : P → ι → Option κ) (A B : P) (id i : ι) (entry : Option κ)
    (h : B ≠ A ∨ i ≠ id) : setPending pending A id entry B i = pending B i := by
  by_cases hB : B = A
  · subst B
    have hi : i ≠ id := h.resolve_left (fun hne => hne rfl)
    simp [setPending, hi]
  · simp [setPending, hB]

/-- Tickets wait at the caller and at the service they name. -/
structure Placed (s : State P σ ι κ) : Prop where
  asking : ∀ A, ∀ t ∈ s.asking A, t.requestor = name A
  serving : ∀ S, ∀ t ∈ s.serving S, t.service = name S
  answered : ∀ A, ∀ t ∈ s.answered A, t.requestor = name A

omit [DecidableEq ι] in
theorem Placed.step_refuse {s : State P σ ι κ} (h : Placed name s) (A : P) (t : Ticket σ ι)
    (rest : List (Ticket σ ι)) (hq : s.asking A = t :: rest) : Placed name (s.refuse A t rest) where
  asking := forall_pop s.asking A t rest hq (fun A t => t.requestor = name A) h.asking
  serving := h.serving
  answered := forall_put s.answered A t (fun A t => t.requestor = name A)
    (h.asking A t (hq ▸ List.mem_cons_self ..)) h.answered

theorem Placed.step {s s' : State P σ ι κ} (h : Placed name s) (hstep : Step name service s s') :
    Placed name s' := by
  have hrefuse := h.step_refuse name
  obtain ⟨hask, hserve, hanswer⟩ := h
  cases hstep with
  | call A id k _ _ =>
    exact ⟨forall_put s.asking A _ (fun A t => t.requestor = name A) rfl hask, hserve, hanswer⟩
  | accept A S t rest hq hname =>
    exact ⟨forall_pop s.asking A t rest hq (fun A t => t.requestor = name A) hask,
      forall_put s.serving S t (fun S t => t.service = name S) hname.symm hserve, hanswer⟩
  | refuse A t rest hq _ => exact hrefuse A t rest hq
  | reply A S t rest hq hname =>
    exact ⟨hask, forall_pop s.serving S t rest hq (fun S t => t.service = name S) hserve,
      forall_put s.answered A t (fun A t => t.requestor = name A) hname.symm hanswer⟩
  | deliver A t rest k hq _ =>
    exact ⟨hask, hserve,
      forall_pop s.answered A t rest hq (fun A t => t.requestor = name A) hanswer⟩

variable {name service}

/-- Every call is completed once or still open, under one id. -/
structure Ledger (s : State P σ ι κ) : Prop where
  calls_nodup : ∀ A, (s.calls A).Nodup
  invoked_nodup : ∀ A, (s.invoked A).Nodup
  accounted : ∀ A k, k ∈ s.calls A ↔ k ∈ s.invoked A ∨ ∃ id, s.pending A id = some k
  open_once : ∀ A id k, s.pending A id = some k →
    k ∉ s.invoked A ∧ ∀ i, s.pending A i = some k → i = id

theorem setPending_some_iff (pending : P → ι → Option κ) (A B : P) (id i : ι) (k l : κ)
    (hfree : pending A id = none) :
    setPending pending A id (some k) B i = some l ↔
      (B = A ∧ i = id ∧ l = k) ∨ pending B i = some l := by
  by_cases hsame : B = A ∧ i = id
  · obtain ⟨rfl, rfl⟩ := hsame
    simp [hfree, eq_comm]
  · rw [setPending_of_ne _ _ _ _ _ _ (not_and_or.mp hsame)]
    constructor
    · exact Or.inr
    · rintro (⟨hB, hi, _⟩ | h)
      · exact absurd ⟨hB, hi⟩ hsame
      · exact h

theorem setPending_none_iff (pending : P → ι → Option κ) (A B : P) (id i : ι) (l : κ) :
    setPending pending A id none B i = some l ↔ ¬ (B = A ∧ i = id) ∧ pending B i = some l := by
  by_cases hsame : B = A ∧ i = id
  · obtain ⟨rfl, rfl⟩ := hsame
    simp
  · rw [setPending_of_ne _ _ _ _ _ _ (not_and_or.mp hsame)]
    simp [hsame]

theorem Ledger.step_call {s : State P σ ι κ} (h : Ledger s) (A : P) (id : ι) (k : κ)
    (hfree : s.pending A id = none) (hk : k ∉ s.calls A) :
    Ledger (s.call name service A id k) where
  calls_nodup := nodup_put s.calls A k hk h.calls_nodup
  invoked_nodup := h.invoked_nodup
  accounted := by
    intro B l
    simp only [State.call, mem_put, setPending_some_iff s.pending A B id _ k l hfree,
      h.accounted B l]
    constructor
    · rintro ((hdone | ⟨i, hi⟩) | ⟨hB, hl⟩)
      · exact Or.inl hdone
      · exact Or.inr ⟨i, Or.inr hi⟩
      · exact Or.inr ⟨id, Or.inl ⟨hB, rfl, hl⟩⟩
    · rintro (hdone | ⟨i, ⟨hB, _, hl⟩ | hi⟩)
      · exact Or.inl (Or.inl hdone)
      · exact Or.inr ⟨hB, hl⟩
      · exact Or.inl (Or.inr ⟨i, hi⟩)
  open_once := by
    intro B i l hopen
    simp only [State.call, setPending_some_iff s.pending A B id _ k l hfree] at hopen ⊢
    have hnew : B = A → l = k → (∀ i, s.pending B i ≠ some l) ∧ l ∉ s.invoked B := by
      rintro rfl rfl
      rw [h.accounted] at hk
      exact ⟨fun i hi => hk (Or.inr ⟨i, hi⟩), fun hdone => hk (Or.inl hdone)⟩
    rcases hopen with ⟨hB, hi, hl⟩ | hold
    · obtain ⟨hclosed, hundone⟩ := hnew hB hl
      refine ⟨hundone, ?_⟩
      rintro j (⟨_, hj, _⟩ | hj)
      · rw [hj, hi]
      · exact absurd hj (hclosed j)
    · obtain ⟨hundone, honce⟩ := h.open_once B i l hold
      refine ⟨hundone, ?_⟩
      rintro j (⟨hB, _, hl⟩ | hj)
      · exact absurd hold ((hnew hB hl).1 i)
      · exact honce j hj

theorem Ledger.step_deliver {s : State P σ ι κ} (h : Ledger s) (A : P) (t : Ticket σ ι)
    (rest : List (Ticket σ ι)) (k : κ) (hk : s.pending A t.id = some k) :
    Ledger (s.deliver A t rest k) where
  calls_nodup := h.calls_nodup
  invoked_nodup := nodup_put s.invoked A k (h.open_once A t.id k hk).1 h.invoked_nodup
  accounted := by
    intro B l
    simp only [State.deliver, mem_put, setPending_none_iff, h.accounted B l]
    constructor
    · rintro (hdone | ⟨i, hi⟩)
      · exact Or.inl (Or.inl hdone)
      · by_cases hsame : B = A ∧ i = t.id
        · obtain ⟨rfl, rfl⟩ := hsame
          exact Or.inl (Or.inr ⟨rfl, Option.some.inj (hi.symm.trans hk)⟩)
        · exact Or.inr ⟨i, hsame, hi⟩
    · rintro ((hdone | ⟨rfl, rfl⟩) | ⟨i, _, hi⟩)
      · exact Or.inl hdone
      · exact Or.inr ⟨t.id, hk⟩
      · exact Or.inr ⟨i, hi⟩
  open_once := by
    intro B i l hopen
    simp only [State.deliver, mem_put, setPending_none_iff] at hopen ⊢
    obtain ⟨hother, hold⟩ := hopen
    obtain ⟨hundone, honce⟩ := h.open_once B i l hold
    refine ⟨?_, fun j hj => honce j hj.2⟩
    rintro (hdone | ⟨rfl, rfl⟩)
    · exact hundone hdone
    · exact hother ⟨rfl, (honce t.id hk).symm⟩

theorem Ledger.step {s s' : State P σ ι κ} (h : Ledger s) (hstep : Step name service s s') :
    Ledger s' := by
  cases hstep with
  | call A id k hfree hk => exact h.step_call A id k hfree hk
  | accept A S t rest _ _ =>
    exact ⟨h.calls_nodup, h.invoked_nodup, h.accounted, h.open_once⟩
  | refuse A t rest _ _ =>
    exact ⟨h.calls_nodup, h.invoked_nodup, h.accounted, h.open_once⟩
  | reply A S t rest _ _ =>
    exact ⟨h.calls_nodup, h.invoked_nodup, h.accounted, h.open_once⟩
  | deliver A t rest k _ hk => exact h.step_deliver A t rest k hk

end BlackCat.RequestReply
