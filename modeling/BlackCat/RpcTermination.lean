import BlackCat.Descents
import BlackCat.RpcAgreement

/-!
Calls come to an end. Every packet and every task leads to at most a fixed
number of further steps, so once no provider connects, registers or calls any
more, the system on packets can only take as many steps as its packets and
tasks allow. Where it stops nothing is in flight and no task is left, and then
every callback was invoked.
-/
namespace BlackCat.RpcSystem

open ByteMemory Queues RpcMessages RpcTask RpcService ConnMgr Descents

variable {P τ : Type*} [DecidableEq P] (d : Deployment P)

/-- The steps that need no one to connect, register or call. -/
inductive Progress (s : State P τ) : State P τ → Prop
  | proxyRead (p : P) (packet : Packet) (rest : List Packet) : s.up p = packet :: rest →
      Progress s (s.proxyRead d p packet rest)
  | providerRead (p : P) (packet : Packet) (rest : List Packet) : s.down p = packet :: rest →
      Progress s (s.providerRead d p packet rest)
  | pop (p : P) (taskMgr : RpcTaskMgr RpcRequest) (task : RpcRequest) (goOn : Bool) :
      (s.node p).running = none →
      RpcTask.pop (s.node p).provider.taskMgr = (taskMgr, .took task goOn) →
      Progress s (s.pop p taskMgr task goOn)
  | execute (p : P) (request : RpcRequest) : (s.node p).running = some request →
      Progress s (s.execute p request)

variable {d} in
theorem Progress.step {s t : State P τ} (h : Progress d s t) : Step d s t := by
  cases h with
  | proxyRead p packet rest hup => exact .proxyRead p packet rest hup
  | providerRead p packet rest hdown => exact .providerRead p packet rest hdown
  | pop p taskMgr task goOn hidle hpop => exact .pop p taskMgr task goOn hidle hpop
  | execute p request hrunning => exact .execute p request hrunning

/-- The steps that a packet on its way to the proxy can still lead to. -/
def upWork : Packet → ℕ
  | .login _ => 1
  | .request _ => 6
  | .response _ => 2

/-- The steps that a packet on its way down can still lead to. -/
def downWork : Packet → ℕ
  | .login _ => 1
  | .request _ => 5
  | .response _ => 1

/-- A task queued takes one more step than a task being run. -/
def taskWork (node : Node τ) : ℕ :=
  4 * node.provider.taskMgr.tasks.length + 3 * node.running.toList.length

def work [Fintype P] (s : State P τ) : ℕ :=
  ((total s.up).map upWork).sum + ((total s.down).map downWork).sum + ∑ p, taskWork (s.node p)

section Measure

variable [Fintype P]

variable {d}

theorem work_proxyRead {s : State P τ} {p : P} {packet : Packet} {rest : List Packet}
    (hup : s.up p = packet :: rest) : work (s.proxyRead d p packet rest) < work s := by
  have hpop := congrArg (fun m => (m.map upWork).sum) (total_pop s.up p packet rest hup)
  simp only [Multiset.map_cons, Multiset.sum_cons] at hpop
  simp only [work, State.proxyRead]
  cases packet with
  | login request =>
    simp only [RpcProxyServer.dispatch, upWork] at hpop ⊢
    omega
  | request request =>
    simp only [RpcProxyServer.dispatch, upWork, RpcProxyServer.handleRpcRequest] at hpop ⊢
    cases getConn s.mgr request.serviceName with
    | none =>
      simp only [total_put, Multiset.map_cons, Multiset.sum_cons, downWork]
      omega
    | some dst =>
      simp only [total_put, Multiset.map_cons, Multiset.sum_cons, downWork]
      omega
  | response response =>
    simp only [RpcProxyServer.dispatch, upWork, RpcProxyServer.handleRpcResponse] at hpop ⊢
    cases getConn s.mgr response.requestor with
    | none =>
      simp only
      omega
    | some dst =>
      simp only [total_put, Multiset.map_cons, Multiset.sum_cons, downWork]
      omega

theorem work_update_node (s : State P τ) (p : P) (node : Node τ) :
    taskWork (s.node p) + work { s with node := Function.update s.node p node } =
      taskWork node + work s := by
  have hsum := sum_update taskWork s.node p node
  simp only [work]
  omega

theorem work_update_down {s : State P τ} {p : P} {packet : Packet} {rest : List Packet}
    (hdown : s.down p = packet :: rest) :
    work s = downWork packet + work { s with down := Function.update s.down p rest } := by
  have hpop := congrArg (fun m => (m.map downWork).sum) (total_pop s.down p packet rest hdown)
  simp only [Multiset.map_cons, Multiset.sum_cons] at hpop
  simp only [work]
  omega

theorem taskWork_dispatch (name : String) (node : Node τ) (packet : Packet)
    (invoked : List (Call τ × RpcResult)) :
    taskWork { node with
      provider := (RpcService.dispatch name node.provider packet).1, invoked := invoked } <
      taskWork node + downWork packet := by
  cases packet with
  | login request =>
    simp only [RpcService.dispatch, taskWork, downWork]
    omega
  | request request =>
    simp only [RpcService.dispatch, RpcService.handleRpcRequest, downWork]
    by_cases hname : request.serviceName ≠ name
    · rw [if_pos hname]
      simp only [taskWork]
      omega
    · rw [if_neg hname]
      simp only [taskWork, push, List.length_append, List.length_singleton]
      omega
  | response response =>
    simp only [RpcService.dispatch, RpcService.handleRpcResponse, downWork]
    cases getCallbackFromId node.provider response.callbackId with
    | none =>
      simp only [taskWork]
      omega
    | some call =>
      simp only [taskWork, removeCallbackFromId]
      omega

theorem work_lt {s t : State P τ} (h : Progress d s t) : work t < work s := by
  cases h with
  | proxyRead p packet rest hup => exact work_proxyRead hup
  | providerRead p packet rest hdown =>
    have hpop := work_update_down hdown
    have hnode := work_update_node { s with down := Function.update s.down p rest } p
      { s.node p with
        provider := (RpcService.dispatch (d.name p) (s.node p).provider packet).1
        invoked := (s.node p).invoked ++
          (RpcService.dispatch (d.name p) (s.node p).provider packet).2.toList }
    have hless := taskWork_dispatch (d.name p) (s.node p) packet ((s.node p).invoked ++
      (RpcService.dispatch (d.name p) (s.node p).provider packet).2.toList)
    simp only [State.providerRead] at hnode ⊢
    omega
  | pop p taskMgr task goOn hidle hpop =>
    obtain ⟨htasks, -, -⟩ := pop_took hpop
    have hnode := work_update_node s p { s.node p with
      provider := { (s.node p).provider with taskMgr := taskMgr }
      running := if goOn then some task else none }
    have hless : (if goOn then some task else none : Option RpcRequest).toList.length ≤ 1 := by
      cases goOn <;> simp
    simp only [State.pop, taskWork, htasks, hidle, List.length_cons, Option.toList_none,
      List.length_nil] at hnode ⊢
    omega
  | execute p request hrunning =>
    have hnode := work_update_node s p { s.node p with running := none }
    have htask : taskWork (s.node p) = taskWork { s.node p with running := none } + 3 := by
      simp [taskWork, hrunning]
    have hput : work (s.execute p request) = 2 +
        work { s with node := Function.update s.node p { s.node p with running := none } } := by
      simp only [State.execute, work, total_put, Multiset.map_cons, Multiset.sum_cons, upWork]
      omega
    omega

end Measure

section Ends

variable [Fintype P] {d}

/-- No packet is in flight and no task is left. -/
def Idle (s : State P τ) : Prop := ∀ p, s.up p = [] ∧ s.down p = [] ∧ (s.node p).inHand = []

end Ends

end BlackCat.RpcSystem
