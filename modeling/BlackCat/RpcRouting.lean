import BlackCat.RpcSystem

/-!
Which packets can stand on which link of the RPC system. A provider's login is
the first packet the proxy handles from it, and names lead to their providers
only. So requests reach the service they name, responses reach their requestor,
and a service that is not online has nothing in hand.
-/
namespace BlackCat.RpcSystem

open ByteMemory Queues RpcMessages RpcTask RpcService ConnMgr

variable {P τ : Type*}

def Online (mgr : Registry P) (n : String) : Prop := getConn mgr n ≠ none

variable (d : Deployment P)

/-- Requests with p: they are for p, and both ends are online. -/
def TaskOk (mgr : Registry P) (p : P) (request : RpcRequest) : Prop :=
  request.serviceName = d.name p ∧ Online mgr request.serviceName ∧
    Online mgr request.requestor

def UpOk (mgr : Registry P) (p : P) : Packet → Prop
  | .login request => request.serviceName = d.name p
  | .request request => request.requestor = d.name p
  | .response response => response.serviceName = d.name p ∧
      Online mgr response.serviceName ∧ Online mgr response.requestor

def DownOk (mgr : Registry P) (p : P) : Packet → Prop
  | .login _ => False
  | .request request => TaskOk d mgr p request
  | .response response => response.requestor = d.name p

/-- The task being run and those queued. -/
def Node.inHand (node : Node τ) : List RpcRequest :=
  node.running.toList ++ node.provider.taskMgr.tasks

/-- What holds of one provider and its links. -/
structure NodeOk (mgr : Registry P) (p : P) (up down : List Packet) (node : Node τ) : Prop where
  up_ok : ∀ packet ∈ up, UpOk d mgr p packet
  down_ok : ∀ packet ∈ down, DownOk d mgr p packet
  tasks_ok : ∀ request ∈ node.inHand, TaskOk d mgr p request
  login_first : ¬ Online mgr (d.name p) →
    if node.connected then ∃ request rest, up = .login request :: rest else up = []
  flag : node.provider.taskMgr.running = true
  serials : ∀ call ∈ node.calls, call.serial < node.calls.length

structure Routed (s : State P τ) : Prop where
  registry : ∀ n p, getConn s.mgr n = some p → n = d.name p
  nodes : ∀ p, NodeOk d s.mgr p (s.up p) (s.down p) (s.node p)

variable {d}

theorem Routed.exists_conn {s : State P τ} (h : Routed d s) {n : String} (hn : Online s.mgr n) :
    ∃ p, getConn s.mgr n = some p ∧ n = d.name p := by
  obtain ⟨p, hp⟩ := Option.ne_none_iff_exists'.mp hn
  exact ⟨p, hp, h.registry n p hp⟩

theorem NodeOk.mono {mgr mgr' : Registry P} (hmono : ∀ n, Online mgr n → Online mgr' n) {p : P}
    {up down : List Packet} {node : Node τ} (h : NodeOk d mgr p up down node) :
    NodeOk d mgr' p up down node where
  up_ok := by
    intro packet hmem
    have hok := h.up_ok packet hmem
    cases packet with
    | login request => exact hok
    | request request => exact hok
    | response response => exact ⟨hok.1, hmono _ hok.2.1, hmono _ hok.2.2⟩
  down_ok := by
    intro packet hmem
    have hok := h.down_ok packet hmem
    cases packet with
    | login request => exact hok
    | request request => exact ⟨hok.1, hmono _ hok.2.1, hmono _ hok.2.2⟩
    | response response => exact hok
  tasks_ok := by
    intro request hmem
    have hok := h.tasks_ok request hmem
    exact ⟨hok.1, hmono _ hok.2.1, hmono _ hok.2.2⟩
  login_first := fun hoff => h.login_first fun hon => hoff (hmono _ hon)
  flag := h.flag
  serials := h.serials

theorem Routed.online_of_up {s : State P τ} (h : Routed d s) {p : P} {packet : Packet}
    {rest : List Packet} (hup : s.up p = packet :: rest)
    (hlogin : ∀ request, packet ≠ .login request) : Online s.mgr (d.name p) := by
  by_contra hoff
  have hfirst := (h.nodes p).login_first hoff
  rw [hup] at hfirst
  by_cases hconn : (s.node p).connected = true
  · rw [if_pos hconn] at hfirst
    obtain ⟨request, tail, heq⟩ := hfirst
    exact hlogin request (List.cons.inj heq).1
  · rw [if_neg hconn] at hfirst
    cases hfirst

theorem routed_initial : Routed d (initial : State P τ) where
  registry := by
    intro n p hp
    cases hp
  nodes := by
    intro p
    constructor <;> simp [initial, Node.inHand, RpcService.fresh, RpcTask.fresh]

variable [DecidableEq P]

theorem Routed.put_up {s : State P τ} (h : Routed d s) (p : P) (packet : Packet)
    (hok : UpOk d s.mgr p packet)
    (hfirst : (s.node p).connected = true ∨ Online s.mgr (d.name p)) :
    Routed d { s with up := put s.up p packet } where
  registry := h.registry
  nodes := by
    intro q
    obtain ⟨hup, hdown, htasks, hlogin, hflag, hserials⟩ := h.nodes q
    refine ⟨?_, hdown, htasks, ?_, hflag, hserials⟩
    · exact forall_put s.up p packet (UpOk d s.mgr) hok (fun r => (h.nodes r).up_ok) q
    · intro hoff
      have hold := hlogin hoff
      by_cases hq : q = p
      · subst q
        have hconn : (s.node p).connected = true := hfirst.resolve_right hoff
        rw [if_pos hconn] at hold ⊢
        obtain ⟨request, rest, heq⟩ := hold
        exact ⟨request, rest ++ [packet], by simp [put, heq]⟩
      · simpa [put, hq] using hold

theorem Routed.pop_up {s : State P τ} (h : Routed d s) (p : P) (packet : Packet)
    (rest : List Packet) (hup : s.up p = packet :: rest) (hon : Online s.mgr (d.name p)) :
    Routed d { s with up := Function.update s.up p rest } where
  registry := h.registry
  nodes := by
    intro q
    obtain ⟨_, hdown, htasks, hlogin, hflag, hserials⟩ := h.nodes q
    refine ⟨?_, hdown, htasks, ?_, hflag, hserials⟩
    · exact forall_pop s.up p packet rest hup (UpOk d s.mgr) (fun r => (h.nodes r).up_ok) q
    · intro hoff
      have hq : q ≠ p := by
        rintro rfl
        exact hoff hon
      simpa [hq] using hlogin hoff

theorem Routed.put_down {s : State P τ} (h : Routed d s) (p : P) (packet : Packet)
    (hok : DownOk d s.mgr p packet) : Routed d { s with down := put s.down p packet } where
  registry := h.registry
  nodes := by
    intro q
    obtain ⟨hup, _, htasks, hlogin, hflag, hserials⟩ := h.nodes q
    exact ⟨hup, forall_put s.down p packet (DownOk d s.mgr) hok (fun r => (h.nodes r).down_ok) q,
      htasks, hlogin, hflag, hserials⟩

theorem Routed.pop_down {s : State P τ} (h : Routed d s) (p : P) (packet : Packet)
    (rest : List Packet) (hdown : s.down p = packet :: rest) :
    Routed d { s with down := Function.update s.down p rest } where
  registry := h.registry
  nodes := by
    intro q
    obtain ⟨hup, _, htasks, hlogin, hflag, hserials⟩ := h.nodes q
    exact ⟨hup, forall_pop s.down p packet rest hdown (DownOk d s.mgr)
      (fun r => (h.nodes r).down_ok) q, htasks, hlogin, hflag, hserials⟩

theorem Routed.set_node {s : State P τ} (h : Routed d s) (p : P) (node : Node τ)
    (htasks : ∀ request ∈ node.inHand, TaskOk d s.mgr p request)
    (hconnected : node.connected = (s.node p).connected)
    (hflag : node.provider.taskMgr.running = (s.node p).provider.taskMgr.running)
    (hserials : ∀ call ∈ node.calls, call.serial < node.calls.length) :
    Routed d { s with node := Function.update s.node p node } where
  registry := h.registry
  nodes := by
    intro q
    by_cases hq : q = p
    · subst q
      simp only [Function.update_self]
      exact {
        up_ok := (h.nodes p).up_ok
        down_ok := (h.nodes p).down_ok
        tasks_ok := htasks
        login_first := by
          rw [hconnected]
          exact (h.nodes p).login_first
        flag := hflag.trans (h.nodes p).flag
        serials := hserials
      }
    · simp only [Function.update_of_ne hq]
      exact h.nodes q

theorem Routed.connect {s : State P τ} (h : Routed d s) (p : P)
    (hconn : (s.node p).connected = false) : Routed d (s.connect d p) where
  registry := h.registry
  nodes := by
    intro q
    by_cases hq : q = p
    · subst q
      obtain ⟨hup, hdown, htasks, hlogin, hflag, hserials⟩ := h.nodes p
      simp only [State.connect, Function.update_self]
      refine ⟨?_, hdown, htasks, ?_, hflag, hserials⟩
      · exact forall_put s.up p (onConnected (d.name p)) (UpOk d s.mgr) rfl
          (fun r => (h.nodes r).up_ok) p
      · intro hoff
        have hnil := hlogin hoff
        rw [if_neg (by simp [hconn])] at hnil
        exact ⟨⟨d.name p, "test key"⟩, [], by simp [put, hnil, onConnected]⟩
    · simpa [State.connect, put, hq] using h.nodes q

theorem Routed.register {s : State P τ} (h : Routed d s) (p : P) (typeName : String)
    (func : RpcCallback) : Routed d (s.register p typeName func) :=
  h.set_node p _ (h.nodes p).tasks_ok rfl rfl (h.nodes p).serials

theorem Routed.call {s : State P τ} (h : Routed d s) (p : P) (thread : τ)
    (service requestName : String) (requestBody : List Byte) (cbId : UInt64)
    (hconn : (s.node p).connected = true) :
    Routed d (s.call d p thread service requestName requestBody cbId) := by
  have hsent := h.put_up p (sendRequestToServer (d.name p) service requestName requestBody cbId)
    rfl (Or.inl hconn)
  refine hsent.set_node p _ ?_ ?_ ?_ ?_
  · exact (h.nodes p).tasks_ok
  · rfl
  · rfl
  intro call hmem
  simp only [List.mem_append, List.mem_singleton] at hmem
  simp only [List.length_append, List.length_singleton]
  rcases hmem with hold | rfl
  · exact Nat.lt_succ_of_lt ((h.nodes p).serials call hold)
  · exact Nat.lt_succ_self _

theorem Routed.proxyLogin {s : State P τ} (h : Routed d s) (p : P) (request : LoginRequest)
    (rest : List Packet) (hup : s.up p = .login request :: rest) :
    Routed d (s.proxyRead d p (.login request) rest) := by
  have hname : request.serviceName = d.name p :=
    (h.nodes p).up_ok (.login request) (hup ▸ List.mem_cons_self ..)
  have hconn : ∀ n, getConn (add d.getId s.mgr request.serviceName p) n =
      if n = request.serviceName then some p else getConn s.mgr n :=
    fun n => getConn_add d.getId s.mgr request.serviceName n p
  have hmono : ∀ n, Online s.mgr n →
      Online (add d.getId s.mgr request.serviceName p) n := by
    intro n hn
    unfold Online
    rw [hconn]
    by_cases hsame : n = request.serviceName
    · rw [if_pos hsame]
      exact Option.some_ne_none p
    · rw [if_neg hsame]
      exact hn
  have hon : Online (add d.getId s.mgr request.serviceName p) (d.name p) := by
    unfold Online
    rw [hconn, if_pos hname.symm]
    exact Option.some_ne_none p
  have hadded : Routed d { s with mgr := add d.getId s.mgr request.serviceName p } := {
    registry := by
      intro n q hq
      rw [hconn] at hq
      by_cases hsame : n = request.serviceName
      · rw [if_pos hsame] at hq
        cases hq
        exact hsame.trans hname
      · rw [if_neg hsame] at hq
        exact h.registry n q hq
    nodes := fun q => (h.nodes q).mono hmono
  }
  exact hadded.pop_up p _ rest hup hon

theorem Routed.refuse {s : State P τ} (h : Routed d s) (p : P) (request : RpcRequest)
    (rest : List Packet) (hup : s.up p = .request request :: rest) :
    Routed d (s.refuse p request rest) := by
  have hfrom : request.requestor = d.name p :=
    (h.nodes p).up_ok (.request request) (hup ▸ List.mem_cons_self ..)
  have hon := h.online_of_up hup (fun _ heq => by cases heq)
  exact (h.pop_up p _ rest hup hon).put_down p _ hfrom

theorem Routed.proxyRequest {s : State P τ} (h : Routed d s) (p : P) (request : RpcRequest)
    (rest : List Packet) (hup : s.up p = .request request :: rest) :
    Routed d (s.proxyRead d p (.request request) rest) := by
  cases hdst : getConn s.mgr request.serviceName with
  | none =>
    rw [proxyRead_offline d s p request rest hdst]
    exact h.refuse p request rest hup
  | some q =>
    have hfrom : request.requestor = d.name p :=
      (h.nodes p).up_ok (.request request) (hup ▸ List.mem_cons_self ..)
    have hon := h.online_of_up hup (fun _ heq => by cases heq)
    rw [proxyRead_online d s p q request rest hdst]
    apply (h.pop_up p _ rest hup hon).put_down q
    refine ⟨h.registry _ q hdst, ?_, hfrom ▸ hon⟩
    unfold Online
    rw [hdst]
    exact Option.some_ne_none q

theorem Routed.proxyResponse {s : State P τ} (h : Routed d s) (p : P) (response : RpcResponse)
    (rest : List Packet) (hup : s.up p = .response response :: rest) :
    Routed d (s.proxyRead d p (.response response) rest) := by
  have hok : UpOk d s.mgr p (.response response) :=
    (h.nodes p).up_ok _ (hup ▸ List.mem_cons_self ..)
  have hon := h.online_of_up hup (fun _ heq => by cases heq)
  obtain ⟨q, hq, hname⟩ := h.exists_conn hok.2.2
  rw [proxyRead_back d s p q response rest hq]
  exact (h.pop_up p _ rest hup hon).put_down q _ hname

theorem Routed.providerRead {s : State P τ} (h : Routed d s) (p : P) (packet : Packet)
    (rest : List Packet) (hdown : s.down p = packet :: rest) :
    Routed d (s.providerRead d p packet rest) := by
  have hok := (h.nodes p).down_ok _ (hdown ▸ List.mem_cons_self ..)
  have hpopped := h.pop_down p packet rest hdown
  cases packet with
  | login request => exact hok.elim
  | request request =>
    have hmine : handleRpcRequest (d.name p) (s.node p).provider request =
        { (s.node p).provider with taskMgr := push (s.node p).provider.taskMgr request } := by
      rw [handleRpcRequest, if_neg (not_not.mpr hok.1)]
    simp only [State.providerRead, dispatch, hmine]
    refine hpopped.set_node p _ ?_ rfl rfl (h.nodes p).serials
    intro r hr
    simp only [Node.inHand, push, ← List.append_assoc, List.mem_append,
      List.mem_singleton] at hr
    rcases hr with hold | rfl
    · exact (h.nodes p).tasks_ok r (List.mem_append.mpr hold)
    · exact hok
  | response response =>
    simp only [State.providerRead, dispatch, handleRpcResponse]
    cases getCallbackFromId (s.node p).provider response.callbackId with
    | none => exact hpopped.set_node p _ (h.nodes p).tasks_ok rfl rfl (h.nodes p).serials
    | some cb => exact hpopped.set_node p _ (h.nodes p).tasks_ok rfl rfl (h.nodes p).serials

theorem Routed.pop {s : State P τ} (h : Routed d s) (p : P) (taskMgr : RpcTaskMgr RpcRequest)
    (task : RpcRequest) (goOn : Bool)
    (hpop : RpcTask.pop (s.node p).provider.taskMgr = (taskMgr, .took task goOn)) :
    Routed d (s.pop p taskMgr task goOn) := by
  obtain ⟨htasks, hflag, _⟩ := pop_took hpop
  refine h.set_node p _ ?_ rfl hflag (h.nodes p).serials
  intro request hmem
  apply (h.nodes p).tasks_ok request
  simp only [Node.inHand, List.mem_append, Option.mem_toList] at hmem ⊢
  right
  rw [htasks]
  rcases hmem with hrun | hqueued
  · cases goOn with
    | true =>
      cases hrun
      exact List.mem_cons_self ..
    | false => cases hrun
  · exact List.mem_cons_of_mem _ hqueued

theorem Routed.execute {s : State P τ} (h : Routed d s) (p : P) (request : RpcRequest)
    (hrun : (s.node p).running = some request) : Routed d (s.execute p request) := by
  have hok : TaskOk d s.mgr p request := by
    apply (h.nodes p).tasks_ok
    simp [Node.inHand, hrun]
  obtain ⟨result, hresult⟩ := exists_handler_eq (s.node p).provider request
  have hsent := h.put_up p (.response (handler (s.node p).provider request))
    (by rw [hresult]; exact hok) (Or.inr (hok.1 ▸ hok.2.1))
  refine hsent.set_node p _ ?_ rfl rfl (h.nodes p).serials
  intro r hr
  apply (h.nodes p).tasks_ok r
  exact List.mem_append_right _ hr

theorem Routed.step {s s' : State P τ} (h : Routed d s) (hstep : Step d s s') : Routed d s' := by
  cases hstep with
  | connect p hconn => exact h.connect p hconn
  | register p typeName func => exact h.register p typeName func
  | call p thread service requestName requestBody cbId hconn _ =>
    exact h.call p thread service requestName requestBody cbId hconn
  | proxyRead p packet rest hup =>
    cases packet with
    | login request => exact h.proxyLogin p request rest hup
    | request request => exact h.proxyRequest p request rest hup
    | response response => exact h.proxyResponse p response rest hup
  | providerRead p packet rest hdown => exact h.providerRead p packet rest hdown
  | pop p taskMgr task goOn _ hpop => exact h.pop p taskMgr task goOn hpop
  | execute p request hrun => exact h.execute p request hrun

theorem Reachable.routed {s : State P τ} (h : Reachable d s) : Routed d s := by
  induction h with
  | initial => exact routed_initial
  | step _ hstep ih => exact ih.step hstep

end BlackCat.RpcSystem
