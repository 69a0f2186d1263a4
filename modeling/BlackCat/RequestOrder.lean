import BlackCat.RequestTokens

/-!
Order in the request-reply service. The tickets from one caller to one service
form a pipeline through three queues. Steps that move tickets do not change
it, a call extends it at one end and a completed call leaves it at the other.
-/
namespace BlackCat.RequestReply

open Queues

variable {P σ ι κ : Type*} [DecidableEq P] [DecidableEq σ]
variable (name : P → σ) (service : κ → σ)

/-- The id of a ticket, if it is from a to n. -/
def Ticket.idFor (a n : σ) (t : Ticket σ ι) : Option ι :=
  if t.requestor = a ∧ t.service = n then some t.id else none

/-- The ids of the tickets from A to S, the oldest first. -/
def pipeline (s : State P σ ι κ) (A S : P) : List ι :=
  (s.answered A).filterMap (Ticket.idFor (name A) (name S)) ++
    ((s.serving S).filterMap (Ticket.idFor (name A) (name S)) ++
      (s.asking A).filterMap (Ticket.idFor (name A) (name S)))

variable {name service}

theorem Ticket.idFor_toList_eq (hname : Function.Injective name) (A S B T : P) (t : Ticket σ ι)
    (hA : t.requestor = name A) (hS : t.service = name S) :
    (t.idFor (name B) (name T)).toList = if B = A ∧ T = S then [t.id] else [] := by
  by_cases hpair : B = A ∧ T = S
  · obtain ⟨rfl, rfl⟩ := hpair
    simp [Ticket.idFor, hA, hS]
  · have hnot : ¬ (t.requestor = name B ∧ t.service = name T) := by
      rw [hA, hS]
      rintro ⟨hB, hT⟩
      exact hpair ⟨(hname hB).symm, (hname hT).symm⟩
    simp [Ticket.idFor, hnot, hpair]

theorem pipeline_accept (hname : Function.Injective name) {s : State P σ ι κ}
    (hplaced : Placed name s) (A S : P) (t : Ticket σ ι) (rest : List (Ticket σ ι))
    (hq : s.asking A = t :: rest) (hS : name S = t.service) (B T : P) :
    pipeline name (s.accept A S t rest) B T = pipeline name s B T := by
  have hA := hplaced.asking A t (hq ▸ List.mem_cons_self ..)
  have hid := Ticket.idFor_toList_eq hname A S B T t hA hS.symm
  simp only [pipeline, State.accept, filterMap_put, filterMap_pop _ s.asking A t rest hq B, hid,
    List.append_assoc]
  by_cases hB : B = A <;> by_cases hT : T = S <;> simp [hB, hT]

theorem pipeline_reply (hname : Function.Injective name) {s : State P σ ι κ}
    (hplaced : Placed name s) (A S : P) (t : Ticket σ ι) (rest : List (Ticket σ ι))
    (hq : s.serving S = t :: rest) (hA : name A = t.requestor) (B T : P) :
    pipeline name (s.reply A S t rest) B T = pipeline name s B T := by
  have hS := hplaced.serving S t (hq ▸ List.mem_cons_self ..)
  have hid := Ticket.idFor_toList_eq hname A S B T t hA.symm hS
  simp only [pipeline, State.reply, filterMap_put, filterMap_pop _ s.serving S t rest hq T, hid,
    List.append_assoc]
  by_cases hB : B = A <;> by_cases hT : T = S <;> simp [hB, hT]

/-- A ticket passes a service over only if the service has nothing in hand. -/
theorem pipeline_refuse {s : State P σ ι κ} (hname : Function.Injective name)
    (hplaced : Placed name s) (A : P) (t : Ticket σ ι)
    (rest : List (Ticket σ ι)) (hq : s.asking A = t :: rest)
    (hidle : ∀ S, name S = t.service → s.serving S = []) (B T : P) :
    pipeline name (s.refuse A t rest) B T = pipeline name s B T := by
  have hA := hplaced.asking A t (hq ▸ List.mem_cons_self ..)
  simp only [pipeline, State.refuse, filterMap_put, filterMap_pop _ s.asking A t rest hq B,
    List.append_assoc]
  by_cases hT : name T = t.service
  · have hid := Ticket.idFor_toList_eq hname A T B T t hA hT.symm
    rw [hidle T hT, hid]
    by_cases hB : B = A <;> simp [hB]
  · have hid : t.idFor (name B) (name T) = none := by
      rw [Ticket.idFor, if_neg]
      rintro ⟨_, hs⟩
      exact hT hs.symm
    simp [hid]

variable [DecidableEq ι]

theorem count_filterMap_idFor (a n : σ) (l : List (Ticket σ ι)) (id : ι) :
    (l.filterMap (Ticket.idFor a n)).count id = l.count ⟨a, n, id⟩ := by
  induction l with
  | nil => rfl
  | cons t l ih =>
    obtain ⟨requestor, asked, i⟩ := t
    by_cases hpair : requestor = a ∧ asked = n
    · obtain ⟨rfl, rfl⟩ := hpair
      simp [Ticket.idFor, List.count_cons, ih]
    · have hne : (⟨requestor, asked, i⟩ : Ticket σ ι) ≠ ⟨a, n, id⟩ := by
        intro heq
        obtain ⟨ha, hn, _⟩ := Ticket.mk.inj heq
        exact hpair ⟨ha, hn⟩
      simp [Ticket.idFor, hpair, hne, ih]

variable (name) in
theorem count_pipeline_le [Fintype P] (s : State P σ ι κ) (A S : P) (id : ι) :
    (pipeline name s A S).count id ≤ (tickets s).count ⟨name A, name S, id⟩ := by
  have hanswered := Multiset.count_le_of_le (⟨name A, name S, id⟩ : Ticket σ ι)
    (queue_le_total s.answered A)
  have hserving := Multiset.count_le_of_le (⟨name A, name S, id⟩ : Ticket σ ι)
    (queue_le_total s.serving S)
  have hasking := Multiset.count_le_of_le (⟨name A, name S, id⟩ : Ticket σ ι)
    (queue_le_total s.asking A)
  simp only [Multiset.coe_count] at hanswered hserving hasking
  simp only [pipeline, tickets, List.count_append, count_filterMap_idFor, Multiset.count_add]
  omega

theorem Tokens.pending_of_mem_pipeline [Fintype P] {s : State P σ ι κ}
    (h : Tokens name service s) {A S : P} {id : ι} (hmem : id ∈ pipeline name s A S) :
    (s.pending A id).map service = some (name S) := by
  have hle := count_pipeline_le name s A S id
  have hpos := List.count_pos_iff.mpr hmem
  exact h.pending (Multiset.count_pos.mp (by omega))

theorem Tokens.count_pipeline_le_one [Fintype P] {s : State P σ ι κ}
    (h : Tokens name service s) (A S : P) (id : ι) : (pipeline name s A S).count id ≤ 1 := by
  have hle := count_pipeline_le name s A S id
  have hcount := h A (name S) id
  split at hcount <;> omega

variable (name service)

/-- The calls of A to S are those completed followed by those in the pipeline. -/
def Ordered (s : State P σ ι κ) : Prop :=
  ∀ A S, (s.calls A).filter (fun k => service k = name S) =
    (s.invoked A).filter (fun k => service k = name S) ++
      (pipeline name s A S).filterMap (s.pending A)

variable {name service}

theorem filterMap_setPending (pending : P → ι → Option κ) (A B : P) (id : ι) (entry : Option κ)
    (ids : List ι) (h : B = A → id ∉ ids) :
    ids.filterMap (setPending pending A id entry B) = ids.filterMap (pending B) := by
  apply List.filterMap_congr
  intro i hi
  apply setPending_of_ne
  by_cases hB : B = A
  · right
    rintro rfl
    exact h hB hi
  · exact Or.inl hB

theorem filter_put (p : κ → Prop) [DecidablePred p] (q : P → List κ) (A B : P) (k : κ) :
    (put q A k B).filter p = (q B).filter p ++ if B = A ∧ p k then [k] else [] := by
  by_cases hB : B = A
  · subst B
    by_cases hk : p k <;> simp [put, hk]
  · simp [put, hB]

theorem pipeline_call (s : State P σ ι κ) (A : P) (id : ι) (k : κ) (B T : P) :
    pipeline name (s.call name service A id k) B T =
      pipeline name s B T ++ if B = A ∧ service k = name T then [id] else [] := by
  simp only [pipeline, State.call, filterMap_put, List.append_assoc]
  by_cases hB : B = A
  · subst B
    by_cases hT : service k = name T <;> simp [Ticket.idFor, hT]
  · simp [hB]

theorem pipeline_deliver {s : State P σ ι κ} (hplaced : Placed name s) (A : P) (t : Ticket σ ι)
    (rest : List (Ticket σ ι)) (k : κ) (hq : s.answered A = t :: rest) (B T : P) :
    pipeline name s B T = (if B = A ∧ t.service = name T then [t.id] else []) ++
      pipeline name (s.deliver A t rest k) B T := by
  have hA := hplaced.answered A t (hq ▸ List.mem_cons_self ..)
  simp only [pipeline, State.deliver, filterMap_pop _ s.answered A t rest hq B,
    List.append_assoc]
  by_cases hB : B = A
  · subst B
    by_cases hT : t.service = name T <;> simp [Ticket.idFor, hA, hT]
  · simp [hB]

theorem Ordered.step_call [Fintype P] {s : State P σ ι κ} (h : Ordered name service s)
    (htokens : Tokens name service s) (A : P) (id : ι) (k : κ) (hfree : s.pending A id = none) :
    Ordered name service (s.call name service A id k) := by
  intro B T
  have hfresh : B = A → id ∉ pipeline name s B T := by
    rintro rfl hmem
    have hopen := htokens.pending_of_mem_pipeline hmem
    rw [hfree] at hopen
    cases hopen
  rw [pipeline_call, List.filterMap_append]
  simp only [State.call]
  rw [filter_put, h B T, filterMap_setPending s.pending A B id (some k) _ hfresh,
    List.append_assoc]
  by_cases hpair : B = A ∧ service k = name T
  · obtain ⟨rfl, hT⟩ := hpair
    simp [hT]
  · simp [hpair]

theorem Ordered.step_deliver [Fintype P] {s : State P σ ι κ} (h : Ordered name service s)
    (htokens : Tokens name service s) (hplaced : Placed name s) (A : P) (t : Ticket σ ι)
    (rest : List (Ticket σ ι)) (k : κ) (hq : s.answered A = t :: rest)
    (hk : s.pending A t.id = some k) : Ordered name service (s.deliver A t rest k) := by
  obtain ⟨l, hl, hservice⟩ := htokens.exists_pending hplaced hq
  rw [hk] at hl
  cases hl
  intro B T
  have hpipeline := pipeline_deliver hplaced A t rest k hq B T
  have honce := htokens.count_pipeline_le_one B T t.id
  have hcalls := h B T
  generalize pipeline name (s.deliver A t rest k) B T = ids at hpipeline ⊢
  simp only [State.deliver]
  rw [filter_put, List.append_assoc, hcalls, hservice]
  congr 1
  by_cases hpair : B = A ∧ t.service = name T
  · rw [if_pos hpair] at hpipeline ⊢
    rw [hpipeline, List.count_append, List.count_singleton_self] at honce
    have hgone : t.id ∉ ids := List.count_eq_zero.mp (by omega)
    rw [hpipeline, List.filterMap_append, filterMap_setPending _ _ _ _ _ _ (fun _ => hgone)]
    obtain ⟨rfl, _⟩ := hpair
    simp [hk]
  · rw [if_neg hpair, List.nil_append] at hpipeline
    rw [if_neg hpair, List.nil_append, ← hpipeline]
    symm
    apply filterMap_setPending
    rintro rfl hmem
    have hopen := htokens.pending_of_mem_pipeline hmem
    rw [hk] at hopen
    exact hpair ⟨rfl, hservice.symm.trans (Option.some.inj hopen)⟩

theorem Ordered.step [Fintype P] {s s' : State P σ ι κ} (h : Ordered name service s)
    (hname : Function.Injective name) (htokens : Tokens name service s)
    (hplaced : Placed name s) (hstep : Step name service s s') : Ordered name service s' := by
  cases hstep with
  | call A id k hfree _ => exact h.step_call htokens A id k hfree
  | accept A S t rest hq hS =>
    intro B T
    rw [pipeline_accept hname hplaced A S t rest hq hS B T]
    exact h B T
  | refuse A t rest hq hidle =>
    intro B T
    rw [pipeline_refuse hname hplaced A t rest hq hidle B T]
    exact h B T
  | reply A S t rest hq hA =>
    intro B T
    rw [pipeline_reply hname hplaced A S t rest hq hA B T]
    exact h B T
  | deliver A t rest k hq hk => exact h.step_deliver htokens hplaced A t rest k hq hk

variable (name service)

/-- What holds in every reachable state. -/
structure Sound [Fintype P] (s : State P σ ι κ) : Prop where
  placed : Placed name s
  tokens : Tokens name service s
  ordered : Ordered name service s
  ledger : Ledger s

variable {name service}

theorem Reachable.sound [Fintype P] (hname : Function.Injective name) {s : State P σ ι κ}
    (h : Reachable name service s) : Sound name service s := by
  induction h with
  | initial =>
    exact {
      placed := by constructor <;> simp [RequestReply.initial]
      tokens := by simp [Tokens, tickets, total, RequestReply.initial]
      ordered := by simp [Ordered, pipeline, RequestReply.initial]
      ledger := by constructor <;> simp [RequestReply.initial]
    }
  | step _ hstep ih =>
    exact {
      placed := ih.placed.step name service hstep
      tokens := ih.tokens.step hname ih.placed hstep
      ordered := ih.ordered.step hname ih.tokens ih.placed hstep
      ledger := ih.ledger.step hstep
    }

end BlackCat.RequestReply
