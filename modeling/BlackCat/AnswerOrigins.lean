import BlackCat.ServiceLoss

/-!
Where the results of calls come from. Whatever connections go down, a callback is
invoked with a result that the service it was called for has sent for its caller,
or with the proxy's error that the service is not online.
-/
namespace BlackCat.RpcSystem

open ByteMemory Queues RpcMessages RpcTask RpcService ConnMgr

variable {P τ : Type*} (d : Deployment P)

/-- The error that the proxy sends for a service. -/
def notOnline (service : String) : RpcResult :=
  RpcError.result ⟨service ++ " is not online now"⟩

/-- A result for a call of A to the service: sent by it for A, or the proxy's error. -/
def Answer (s : Lossy P τ) (A : P) (service : String) (result : RpcResult) : Prop :=
  result = notOnline service ∨
    ∃ S, d.name S = service ∧ ∃ response ∈ s.given S,
      response.requestor = d.name A ∧ result = ⟨response.responseName, response.responseBody⟩

/-- Every response on its way down and every result handed to a callback is such an
answer, and what is on its way up was sent. -/
structure Genuine (s : Lossy P τ) : Prop where
  up : ∀ p response, .response response ∈ s.sys.up p → response ∈ s.given p
  down : ∀ A response, .response response ∈ s.sys.down A →
    Answer d s A response.serviceName ⟨response.responseName, response.responseBody⟩
  invoked : ∀ A, ∀ done ∈ (s.sys.node A).invoked, Answer d s A done.1.service done.2

variable {d}

theorem genuine_initial : Genuine d (Lossy.initial : Lossy P τ) := by
  constructor <;> simp [Lossy.initial, RpcSystem.initial]

theorem Answer.next {s : Lossy P τ} {A : P} {service : String} {result : RpcResult}
    (h : Answer d s A service result) (t : State P τ) : Answer d (s.next t) A service result := by
  rcases h with herror | ⟨S, hS, response, hgiven, hrest⟩
  · exact Or.inl herror
  · exact Or.inr ⟨S, hS, response, List.mem_append_left _ hgiven, hrest⟩

theorem mem_discard_up {gone : P → Bool} {t : State P τ} {p : P} {packet : Packet}
    (h : packet ∈ (discard gone t).up p) : packet ∈ t.up p := by
  simp only [discard] at h
  split at h
  · cases h
  · exact h

theorem mem_discard_down {gone : P → Bool} {t : State P τ} {p : P} {packet : Packet}
    (h : packet ∈ (discard gone t).down p) : packet ∈ t.down p := by
  simp only [discard] at h
  split at h
  · cases h
  · exact h

theorem Genuine.next {s : Lossy P τ} (t : State P τ)
    (hdown : ∀ A response, .response response ∈ t.down A →
      Answer d s A response.serviceName ⟨response.responseName, response.responseBody⟩)
    (hinvoked : ∀ A, ∀ done ∈ (t.node A).invoked, Answer d s A done.1.service done.2) :
    Genuine d (s.next t) where
  up := by
    intro p response hmem
    refine List.mem_append_right _ (List.mem_filterMap.mpr ?_)
    exact ⟨.response response, mem_discard_up hmem, rfl⟩
  down := fun A response hmem => (hdown A response (mem_discard_down hmem)).next t
  invoked := fun A done hdone => (hinvoked A done hdone).next t

variable [DecidableEq P]

theorem invoked_update {s : Lossy P τ} (h : Genuine d s) (p : P) (node : Node τ)
    (hsame : node.invoked = (s.sys.node p).invoked) (A : P) :
    ∀ done ∈ (Function.update s.sys.node p node A).invoked,
      Answer d s A done.1.service done.2 := by
  intro done hdone
  by_cases hA : A = p
  · subst A
    rw [Function.update_self, hsame] at hdone
    exact h.invoked p done hdone
  · rw [Function.update_of_ne hA] at hdone
    exact h.invoked A done hdone

theorem Genuine.proxyRead {s : Lossy P τ} {g : State P τ} (h : Genuine d s)
    (hrouted : Routed d g) (hshadow : Shadow d s g) (p : P) (packet : Packet)
    (rest : List Packet) (hup : s.sys.up p = packet :: rest) :
    Genuine d (s.next (s.sys.proxyRead d p packet rest)) := by
  obtain ⟨_, hgup⟩ := hshadow.up_eq hup
  have hok := (hrouted.nodes p).up_ok packet (hgup ▸ List.mem_cons_self ..)
  refine .next _ ?_ h.invoked
  cases packet with
  | login request => exact h.down
  | request request =>
    cases hdst : getConn s.sys.mgr request.serviceName with
    | none =>
      rw [proxyRead_offline d s.sys p request rest hdst]
      intro A response hmem
      rcases (mem_put s.sys.down p A _ _).mp hmem with hold | ⟨rfl, hnew⟩
      · exact h.down A response hold
      · cases hnew
        exact Or.inl rfl
    | some q =>
      rw [proxyRead_online d s.sys p q request rest hdst]
      intro A response hmem
      rcases (mem_put s.sys.down q A _ _).mp hmem with hold | ⟨rfl, hnew⟩
      · exact h.down A response hold
      · cases hnew
  | response response =>
    have hgiven := h.up p response (hup ▸ List.mem_cons_self ..)
    cases hdst : getConn s.sys.mgr response.requestor with
    | none =>
      rw [proxyRead_nobody d s.sys p response rest hdst]
      exact h.down
    | some q =>
      rw [proxyRead_back d s.sys p q response rest hdst]
      have hname := hrouted.registry _ q ((hshadow.route _ q).mp hdst).1
      intro A other hmem
      rcases (mem_put s.sys.down q A _ _).mp hmem with hold | ⟨rfl, hnew⟩
      · exact h.down A other hold
      · cases hnew
        exact Or.inr ⟨p, hok.1.symm, response, hgiven, hname, rfl⟩

theorem Genuine.providerRead [Fintype P] {s : Lossy P τ} {g : State P τ} (h : Genuine d s)
    (hkept : Kept d g) (hshadow : Shadow d s g) (p : P) (packet : Packet) (rest : List Packet)
    (hdown : s.sys.down p = packet :: rest) :
    Genuine d (s.next (s.sys.providerRead d p packet rest)) := by
  obtain ⟨_, hgdown⟩ := hshadow.down_eq hdown
  refine .next _ ?_ ?_
  · intro A response hmem
    apply h.down A response
    by_cases hA : A = p
    · subst A
      simp only [State.providerRead, Function.update_self] at hmem
      exact hdown ▸ List.mem_cons_of_mem _ hmem
    · simpa only [State.providerRead, Function.update_of_ne hA] using hmem
  · cases packet with
    | login request =>
      exact invoked_update h p _ (by simp [RpcService.dispatch])
    | request request =>
      exact invoked_update h p _ (by simp [RpcService.dispatch])
    | response response =>
      obtain ⟨cb, hcb, hservice⟩ := hkept.tokens.exists_pending hkept.placed
        (view_answered_cons g p response rest hgdown)
      have hfound : getCallbackFromId (s.sys.node p).provider response.callbackId = some cb := by
        rw [← hshadow.node]
        exact hcb
      intro A done hdone
      by_cases hA : A = p
      · subst A
        simp only [State.providerRead, RpcService.dispatch, handleRpcResponse, hfound,
          Function.update_self, Option.toList_some, List.mem_append, List.mem_singleton] at hdone
        rcases hdone with hold | rfl
        · exact h.invoked p done hold
        · have horigin := h.down p response (hdown ▸ List.mem_cons_self ..)
          rw [show response.serviceName = cb.service from hservice.symm] at horigin
          exact horigin
      · simp only [State.providerRead, Function.update_of_ne hA] at hdone
        exact h.invoked A done hdone

theorem Genuine.step [Fintype P] {s : Lossy P τ} {g t : State P τ} (h : Genuine d s)
    (hkept : Kept d g) (hshadow : Shadow d s g) (hstep : Step d s.sys t) :
    Genuine d (s.next t) := by
  cases hstep with
  | connect p _ => exact .next _ h.down (invoked_update h p _ rfl)
  | register p typeName func => exact .next _ h.down (invoked_update h p _ rfl)
  | call p thread service requestName requestBody cbId _ _ =>
    exact .next _ h.down (invoked_update h p _ rfl)
  | proxyRead p packet rest hup => exact h.proxyRead hkept.routed hshadow p packet rest hup
  | providerRead p packet rest hdown => exact h.providerRead hkept hshadow p packet rest hdown
  | pop p taskMgr task goOn _ _ => exact .next _ h.down (invoked_update h p _ rfl)
  | execute p request _ => exact .next _ h.down (invoked_update h p _ rfl)

theorem Genuine.disconnect {s : Lossy P τ} (h : Genuine d s) (p : P) :
    Genuine d (s.disconnect d p) where
  up := fun q response hmem => h.up q response (mem_discard_up hmem)
  down := fun A response hmem => h.down A response (mem_discard_down hmem)
  invoked := h.invoked

/-- In every reachable state each callback was invoked with an answer of its service
or with the proxy's error. -/
theorem LossyReachable.genuine [Fintype P] {s : Lossy P τ} (hid : Function.Injective d.getId)
    (h : LossyReachable d s) : Genuine d s := by
  induction h with
  | initial => exact genuine_initial
  | step hreach hstep ih =>
    obtain ⟨g, hkept, hshadow⟩ := hreach.exists_shadow hid
    cases hstep with
    | step t hstep => exact ih.step hkept hshadow hstep
    | disconnect p _ _ => exact ih.disconnect p

end BlackCat.RpcSystem
