import BlackCat.RequestOrder
import BlackCat.RpcRouting

/-!
The RPC system refines the request-reply service. A request on its way to the
proxy is a ticket still asking; one on its way to its service, a task, and a
response on its way to the proxy are with the service, in this order; a
response on its way down is a ticket that is back. Steps inside a provider and
logins do not show, and every other step is one of the service.
-/
namespace BlackCat.RpcSystem

open ByteMemory Queues RpcMessages RpcTask RpcService ConnMgr
open RequestReply (Ticket)

variable {P τ : Type*}

def requestTicket (request : RpcRequest) : Ticket String UInt64 :=
  ⟨request.requestor, request.serviceName, request.callbackId⟩

def responseTicket (response : RpcResponse) : Ticket String UInt64 :=
  ⟨response.requestor, response.serviceName, response.callbackId⟩

def asks : Packet → Option (Ticket String UInt64)
  | .login _ => none
  | .request request => some (requestTicket request)
  | .response _ => none

def answers : Packet → Option (Ticket String UInt64)
  | .login _ => none
  | .request _ => none
  | .response response => some (responseTicket response)

/-- The state of the request-reply service that a state of the system stands for. -/
def view (s : State P τ) : RequestReply.State P String UInt64 (Call τ) where
  asking p := (s.up p).filterMap asks
  serving p := (s.up p).filterMap answers ++
    ((s.node p).inHand.map requestTicket ++ (s.down p).filterMap asks)
  answered p := (s.down p).filterMap answers
  pending p := (s.node p).provider.callbackMap
  calls p := (s.node p).calls
  invoked p := (s.node p).invoked.map Prod.fst

/-- What the service at p has in hand behind the first response on its link. -/
def servingRest (s : State P τ) (p : P) (rest : List Packet) : List (Ticket String UInt64) :=
  rest.filterMap answers ++ ((s.node p).inHand.map requestTicket ++ (s.down p).filterMap asks)

theorem view_serving_cons (s : State P τ) (p : P) (response : RpcResponse) (rest : List Packet)
    (hup : s.up p = .response response :: rest) :
    (view s).serving p = responseTicket response :: servingRest s p rest := by
  simp [view, servingRest, hup, answers]

theorem view_asking_cons (s : State P τ) (p : P) (request : RpcRequest) (rest : List Packet)
    (hup : s.up p = .request request :: rest) :
    (view s).asking p = requestTicket request :: rest.filterMap asks := by
  simp [view, hup, asks]

theorem view_answered_cons (s : State P τ) (p : P) (response : RpcResponse) (rest : List Packet)
    (hdown : s.down p = .response response :: rest) :
    (view s).answered p = responseTicket response :: rest.filterMap answers := by
  simp [view, hdown, answers]

variable [DecidableEq P] (d : Deployment P)

theorem view_connect (s : State P τ) (p : P) : view (s.connect d p) = view s := by
  apply RequestReply.State.ext_party
  intro q
  by_cases hq : q = p
  · subst q
    simp [RequestReply.State.party, view, State.connect, put, onConnected, asks, answers,
      Node.inHand]
  · simp [RequestReply.State.party, view, State.connect, put, hq]

theorem view_register (s : State P τ) (p : P) (typeName : String) (func : RpcCallback) :
    view (s.register p typeName func) = view s := by
  apply RequestReply.State.ext_party
  intro q
  by_cases hq : q = p
  · subst q
    simp [RequestReply.State.party, view, State.register, RpcService.register, Node.inHand]
  · simp [RequestReply.State.party, view, State.register, hq]

theorem view_call (s : State P τ) (p : P) (thread : τ) (service requestName : String)
    (requestBody : List Byte) (cbId : UInt64) :
    view (s.call d p thread service requestName requestBody cbId) =
      (view s).call d.name Call.service p cbId ⟨thread, service, (s.node p).calls.length⟩ := by
  apply RequestReply.State.ext_party
  intro q
  by_cases hq : q = p
  · subst q
    simp [RequestReply.State.party, view, State.call, RequestReply.State.call,
      RequestReply.setPending, put, RpcService.call, sendRequestToServer, asks, answers,
      requestTicket, Node.inHand]
  · simp [RequestReply.State.party, view, State.call, RequestReply.State.call,
      RequestReply.setPending, put, hq]

theorem view_proxyLogin (s : State P τ) (p : P) (request : LoginRequest) (rest : List Packet)
    (hup : s.up p = .login request :: rest) :
    view (s.proxyRead d p (.login request) rest) = view s := by
  apply RequestReply.State.ext_party
  intro q
  by_cases hq : q = p
  · subst q
    simp [RequestReply.State.party, view, State.proxyRead, RpcProxyServer.dispatch, hup,
      List.filterMap_cons, asks, answers]
  · simp [RequestReply.State.party, view, State.proxyRead, RpcProxyServer.dispatch, hq]

theorem view_proxyRequest_some (s : State P τ) (p q : P) (request : RpcRequest)
    (rest : List Packet) (hup : s.up p = .request request :: rest)
    (hdst : getConn s.mgr request.serviceName = some q) :
    view (s.proxyRead d p (.request request) rest) =
      (view s).accept p q (requestTicket request) (rest.filterMap asks) := by
  rw [proxyRead_online d s p q request rest hdst]
  apply RequestReply.State.ext_party
  intro r
  by_cases hp : r = p
  · subst r
    by_cases hq : p = q
    · subst q
      simp [RequestReply.State.party, view, State.relay, RequestReply.State.accept, put, hup,
        List.filterMap_cons, asks, answers]
    · simp [RequestReply.State.party, view, State.relay, RequestReply.State.accept, put, hup,
        List.filterMap_cons, asks, answers, hq]
  · by_cases hq : r = q
    · subst r
      simp [RequestReply.State.party, view, State.relay, RequestReply.State.accept, put, hp, asks,
        answers]
    · simp [RequestReply.State.party, view, State.relay, RequestReply.State.accept, put, hp, hq]

theorem view_refuse (s : State P τ) (p : P) (request : RpcRequest) (rest : List Packet)
    (hup : s.up p = .request request :: rest) :
    view (s.refuse p request rest) =
      (view s).refuse p (requestTicket request) (rest.filterMap asks) := by
  apply RequestReply.State.ext_party
  intro q
  by_cases hq : q = p
  · subst q
    simp [RequestReply.State.party, view, State.refuse, RequestReply.State.refuse, put, hup,
      List.filterMap_cons, asks, answers, responseTicket, requestTicket, RpcRequest.respond]
  · simp [RequestReply.State.party, view, State.refuse, RequestReply.State.refuse, put, hq]

theorem view_proxyResponse (s : State P τ) (p q : P) (response : RpcResponse)
    (rest : List Packet) (hup : s.up p = .response response :: rest)
    (hdst : getConn s.mgr response.requestor = some q) :
    view (s.proxyRead d p (.response response) rest) =
      (view s).reply q p (responseTicket response) (servingRest s p rest) := by
  rw [proxyRead_back d s p q response rest hdst]
  apply RequestReply.State.ext_party
  intro r
  by_cases hp : r = p
  · subst r
    by_cases hq : p = q
    · subst q
      simp [RequestReply.State.party, view, State.relay, RequestReply.State.reply, put, hup,
        List.filterMap_cons, asks, answers, servingRest]
    · simp [RequestReply.State.party, view, State.relay, RequestReply.State.reply, put, hup,
        List.filterMap_cons, asks, hq, servingRest]
  · by_cases hq : r = q
    · subst r
      simp [RequestReply.State.party, view, State.relay, RequestReply.State.reply, put, hp, asks,
        answers]
    · simp [RequestReply.State.party, view, State.relay, RequestReply.State.reply, put, hp, hq]

theorem view_providerRequest (s : State P τ) (p : P) (request : RpcRequest) (rest : List Packet)
    (hdown : s.down p = .request request :: rest) (hname : request.serviceName = d.name p) :
    view (s.providerRead d p (.request request) rest) = view s := by
  have hpush : handleRpcRequest (d.name p) (s.node p).provider request =
      { (s.node p).provider with taskMgr := push (s.node p).provider.taskMgr request } := by
    rw [handleRpcRequest, if_neg (not_not.mpr hname)]
  apply RequestReply.State.ext_party
  intro q
  by_cases hq : q = p
  · subst q
    simp [RequestReply.State.party, view, State.providerRead, dispatch, hpush, hdown,
      List.filterMap_cons, asks, answers, Node.inHand, push]
  · simp [RequestReply.State.party, view, State.providerRead, dispatch, hpush, hq]

theorem view_providerResponse (s : State P τ) (p : P) (response : RpcResponse)
    (rest : List Packet) (hdown : s.down p = .response response :: rest) (cb : Call τ)
    (hcb : (s.node p).provider.callbackMap response.callbackId = some cb) :
    view (s.providerRead d p (.response response) rest) =
      (view s).deliver p (responseTicket response) (rest.filterMap answers) cb := by
  have hhandled : handleRpcResponse (s.node p).provider response =
      (removeCallbackFromId (s.node p).provider response.callbackId,
        some (cb, ⟨response.responseName, response.responseBody⟩)) := by
    simp only [handleRpcResponse, getCallbackFromId, hcb]
  apply RequestReply.State.ext_party
  intro q
  by_cases hq : q = p
  · subst q
    simp [RequestReply.State.party, view, State.providerRead, RequestReply.State.deliver, dispatch,
      hhandled, hdown, List.filterMap_cons, asks, put, Node.inHand, removeCallbackFromId,
      RequestReply.setPending, responseTicket]
  · simp [RequestReply.State.party, view, State.providerRead, RequestReply.State.deliver, dispatch,
      hhandled, put, hq, RequestReply.setPending]

theorem view_pop (s : State P τ) (p : P) (taskMgr : RpcTaskMgr RpcRequest) (task : RpcRequest)
    (hrun : (s.node p).running = none)
    (htasks : (s.node p).provider.taskMgr.tasks = task :: taskMgr.tasks) :
    view (s.pop p taskMgr task true) = view s := by
  apply RequestReply.State.ext_party
  intro q
  by_cases hq : q = p
  · subst q
    simp [RequestReply.State.party, view, State.pop, Node.inHand, hrun, htasks]
  · simp [RequestReply.State.party, view, State.pop, hq]

theorem view_execute (s : State P τ) (p : P) (request : RpcRequest)
    (hrun : (s.node p).running = some request) : view (s.execute p request) = view s := by
  obtain ⟨result, hresult⟩ := exists_handler_eq (s.node p).provider request
  apply RequestReply.State.ext_party
  intro q
  by_cases hq : q = p
  · subst q
    simp [RequestReply.State.party, view, State.execute, hresult, put, asks, answers, Node.inHand,
      hrun, requestTicket, responseTicket, RpcRequest.respond]
  · simp [RequestReply.State.party, view, State.execute, put, hq]

variable {d}

omit [DecidableEq P] in
theorem Routed.serving_eq_nil {s : State P τ} (h : Routed d s) (p : P)
    (hoff : ¬ Online s.mgr (d.name p)) : (view s).serving p = [] := by
  have hup : (s.up p).filterMap answers = [] := by
    apply List.filterMap_eq_nil_iff.mpr
    intro packet hmem
    have hok := (h.nodes p).up_ok packet hmem
    cases packet with
    | login request => rfl
    | request request => rfl
    | response response => exact absurd (hok.1 ▸ hok.2.1) hoff
  have hdown : (s.down p).filterMap asks = [] := by
    apply List.filterMap_eq_nil_iff.mpr
    intro packet hmem
    have hok := (h.nodes p).down_ok packet hmem
    cases packet with
    | login request => rfl
    | request request => exact absurd (hok.1 ▸ hok.2.1) hoff
    | response response => rfl
  have htasks : (s.node p).inHand = [] := by
    apply List.eq_nil_iff_forall_not_mem.mpr
    intro request hmem
    have hok := (h.nodes p).tasks_ok request hmem
    exact hoff (hok.1 ▸ hok.2.1)
  simp only [view, hup, hdown, htasks, List.map_nil, List.append_nil]

/-- Every step of the system is one of the request-reply service, or does not show. -/
theorem simulates [Fintype P] {s s' : State P τ} (h : Routed d s)
    (hplaced : RequestReply.Placed d.name (view s))
    (htokens : RequestReply.Tokens d.name Call.service (view s)) (hstep : Step d s s') :
    view s' = view s ∨ RequestReply.Step d.name Call.service (view s) (view s') := by
  cases hstep with
  | connect p _ => exact Or.inl (view_connect d s p)
  | register p typeName func => exact Or.inl (view_register s p typeName func)
  | call p thread service requestName requestBody cbId _ hfree =>
    right
    rw [view_call]
    apply RequestReply.Step.call p cbId _ hfree
    intro hmem
    exact absurd ((h.nodes p).serials _ hmem) (Nat.lt_irrefl _)
  | proxyRead p packet rest hup =>
    cases packet with
    | login request => exact Or.inl (view_proxyLogin d s p request rest hup)
    | request request =>
      right
      have hasking := view_asking_cons s p request rest hup
      cases hdst : getConn s.mgr request.serviceName with
      | none =>
        rw [proxyRead_offline d s p request rest hdst, view_refuse s p request rest hup]
        apply RequestReply.Step.refuse p _ _ hasking
        intro q hq
        apply h.serving_eq_nil q
        rw [hq]
        exact not_not.mpr hdst
      | some q =>
        rw [view_proxyRequest_some d s p q request rest hup hdst]
        exact RequestReply.Step.accept p q _ _ hasking (h.registry _ q hdst).symm
    | response response =>
      right
      have hok := (h.nodes p).up_ok (.response response) (hup ▸ List.mem_cons_self ..)
      obtain ⟨q, hdst, hname⟩ := h.exists_conn hok.2.2
      rw [view_proxyResponse d s p q response rest hup hdst]
      exact RequestReply.Step.reply q p _ _ (view_serving_cons s p response rest hup) hname.symm
  | providerRead p packet rest hdown =>
    have hok := (h.nodes p).down_ok packet (hdown ▸ List.mem_cons_self ..)
    cases packet with
    | login request => exact hok.elim
    | request request => exact Or.inl (view_providerRequest d s p request rest hdown hok.1)
    | response response =>
      right
      have hanswered := view_answered_cons s p response rest hdown
      obtain ⟨cb, hcb, _⟩ := htokens.exists_pending hplaced hanswered
      rw [view_providerResponse d s p response rest hdown cb hcb]
      exact RequestReply.Step.deliver p _ _ cb hanswered hcb
  | pop p taskMgr task goOn hrun hpop =>
    left
    obtain ⟨htasks, _, hgo⟩ := pop_took hpop
    rw [hgo, (h.nodes p).flag]
    exact view_pop s p taskMgr task hrun htasks
  | execute p request hrun => exact Or.inl (view_execute s p request hrun)

/-- Every reachable state of the system stands for a reachable state of the
request-reply service. -/
theorem Reachable.view_reachable [Fintype P] {s : State P τ} (h : Reachable d s) :
    RequestReply.Reachable d.name Call.service (view s) := by
  induction h with
  | initial => exact RequestReply.Reachable.initial
  | step hreach hstep ih =>
    have hsound := ih.sound d.distinct
    rcases simulates hreach.routed hsound.placed hsound.tokens hstep with hsame | hnext
    · rw [hsame]
      exact ih
    · exact ih.step hnext

end BlackCat.RpcSystem
