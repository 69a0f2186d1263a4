import BlackCat.ConnMgr
import BlackCat.RpcMessages

/-!
The proxy's handlers, and its registry over whole runs of logins, requests,
responses and disconnects. A disconnect removes every route to its connection
exactly when the connection has no entry but the one under its last name, and
what it removes stays removed until the connection logs in again.
-/
namespace BlackCat.RpcProxyServer

open RpcMessages ConnMgr

variable {C : Type*} (getId : C → UInt32)

def handleLoginRequest (mgr : Registry C) (conn : C) (request : LoginRequest) : Registry C :=
  add getId mgr request.serviceName conn

/-- The packet sent for a request, with the connection it is sent on. -/
def handleRpcRequest (mgr : Registry C) (conn : C) (request : RpcRequest) : C × Packet :=
  match getConn mgr request.serviceName with
  | none =>
    let err : RpcError := ⟨request.serviceName ++ " is not online now"⟩
    (conn, .response (request.respond err.result))
  | some dst => (dst, .request request)

/-- A response whose requestor is not found is dropped. -/
def handleRpcResponse (mgr : Registry C) (response : RpcResponse) : Option (C × Packet) :=
  match getConn mgr response.requestor with
  | none => none
  | some dst => some (dst, .response response)

/-- `Dispatch`: the registry afterwards, and what is sent. -/
def dispatch (mgr : Registry C) (conn : C) : Packet → Registry C × Option (C × Packet)
  | .login request => (handleLoginRequest getId mgr conn request, none)
  | .request request => (mgr, some (handleRpcRequest mgr conn request))
  | .response response => (mgr, handleRpcResponse mgr response)

def onDisconnect (mgr : Registry C) (conn : C) : Registry C := del getId mgr conn

/-- What happens at the proxy: a packet arrives, or a connection goes down. -/
inductive Event (C : Type*)
  | packet (conn : C) (packet : Packet)
  | disconnect (conn : C)

def handle (mgr : Registry C) : Event C → Registry C
  | .packet conn packet => (dispatch getId mgr conn packet).1
  | .disconnect conn => onDisconnect getId mgr conn

def run (mgr : Registry C) (events : List (Event C)) : Registry C :=
  events.foldl (handle getId) mgr

def LogsIn (c : C) (event : Event C) : Prop := ∃ request, event = .packet c (.login request)

/-- No name leads to the connection, and nothing that arrives is forwarded to it. -/
structure Unrouted (mgr : Registry C) (c : C) : Prop where
  unnamed : ∀ n, getConn mgr n ≠ some c
  not_forwarded : ∀ conn packet, (dispatch getId mgr conn packet).2 ≠ some (c, packet)

theorem getConn_of_forwarded (mgr : Registry C) (conn c : C) (packet : Packet)
    (h : (dispatch getId mgr conn packet).2 = some (c, packet)) :
    ∃ n, getConn mgr n = some c := by
  cases packet with
  | login request => cases h
  | request request =>
    refine ⟨request.serviceName, ?_⟩
    simp only [dispatch, handleRpcRequest, Option.some.injEq] at h
    cases hconn : getConn mgr request.serviceName with
    | none =>
      rw [hconn] at h
      cases h
    | some dst =>
      rw [hconn] at h
      cases h
      rfl
  | response response =>
    refine ⟨response.requestor, ?_⟩
    simp only [dispatch, handleRpcResponse] at h
    cases hconn : getConn mgr response.requestor with
    | none =>
      rw [hconn] at h
      cases h
    | some dst =>
      rw [hconn] at h
      cases h
      rfl

theorem unrouted_of_unnamed (mgr : Registry C) (c : C) (h : ∀ n, getConn mgr n ≠ some c) :
    Unrouted getId mgr c where
  unnamed := h
  not_forwarded := by
    intro conn packet hsent
    obtain ⟨n, hn⟩ := getConn_of_forwarded getId mgr conn c packet hsent
    exact h n hn

theorem unnamed_handle (mgr : Registry C) (c : C) (event : Event C) (hlogin : ¬ LogsIn c event)
    (h : ∀ n, getConn mgr n ≠ some c) (n : String) :
    getConn (handle getId mgr event) n ≠ some c := by
  cases event with
  | packet conn packet =>
    cases packet with
    | login request =>
      intro hn
      simp only [handle, dispatch, handleLoginRequest] at hn
      rw [getConn_add] at hn
      by_cases hname : n = request.serviceName
      · rw [if_pos hname] at hn
        cases hn
        exact hlogin ⟨request, rfl⟩
      · rw [if_neg hname] at hn
        exact h n hn
    | request request => exact h n
    | response response => exact h n
  | disconnect conn =>
    intro hn
    simp only [handle, onDisconnect] at hn
    rw [getConn_del] at hn
    by_cases hlast : getName getId mgr conn ≠ "" ∧ n = getName getId mgr conn
    · rw [if_pos hlast] at hn
      cases hn
    · rw [if_neg hlast] at hn
      exact h n hn

theorem unnamed_run (mgr : Registry C) (c : C) (events : List (Event C))
    (hlogin : ∀ event ∈ events, ¬ LogsIn c event) (h : ∀ n, getConn mgr n ≠ some c) (n : String) :
    getConn (run getId mgr events) n ≠ some c := by
  induction events generalizing mgr with
  | nil => exact h n
  | cons event events ih =>
    rw [List.forall_mem_cons] at hlogin
    exact ih (handle getId mgr event) hlogin.2 (unnamed_handle getId mgr c event hlogin.1 h)

theorem run_disconnect (before after : List (Event C)) (c : C) :
    run getId empty (before ++ .disconnect c :: after) =
      run getId (del getId (run getId empty before) c) after := by
  simp only [run, List.foldl_append, List.foldl_cons]
  rfl

theorem unrouted_of_direct (before after : List (Event C)) (c : C)
    (h : Direct getId (run getId empty before) c)
    (hlogin : ∀ event ∈ after, ¬ LogsIn c event) :
    Unrouted getId (run getId empty (before ++ .disconnect c :: after)) c := by
  rw [run_disconnect]
  apply unrouted_of_unnamed
  exact unnamed_run getId _ c after hlogin ((getConn_del_ne_iff getId _ c).mpr h)

/-- In every run, a connection that goes down stays without a route until it logs
in again, exactly when it went down with no entry but the one under its last,
non-empty name. -/
theorem unrouted_after_disconnect_iff (before : List (Event C)) (c : C) :
    (∀ after, (∀ event ∈ after, ¬ LogsIn c event) →
        Unrouted getId (run getId empty (before ++ .disconnect c :: after)) c) ↔
      Direct getId (run getId empty before) c := by
  constructor
  · intro h
    apply (getConn_del_ne_iff getId _ c).mp
    have hnow := (h [] (by simp)).unnamed
    rwa [run_disconnect] at hnow
  · intro h after hlogin
    exact unrouted_of_direct getId before after c h hlogin

/-- One connection logs in under two names. -/
def twoLogins : List (Event UInt32) :=
  [.packet 1 (.login ⟨"a", "test key"⟩), .packet 1 (.login ⟨"b", "test key"⟩)]

/-- When it goes down it keeps its first name, and requests for that name are
forwarded to it. -/
theorem dead_route_after_two_logins :
    getConn (run id empty (twoLogins ++ [.disconnect 1])) "a" = some 1 ∧
      (dispatch id (run id empty (twoLogins ++ [.disconnect 1])) 2
        (.request ⟨"a", "x", 0, "", []⟩)).2 = some (1, .request ⟨"a", "x", 0, "", []⟩) ∧
      ¬ Unrouted id (run id empty (twoLogins ++ [.disconnect 1])) 1 := by
  have hroute : getConn (run id empty (twoLogins ++ [.disconnect 1])) "a" = some 1 := by
    decide
  refine ⟨hroute, by decide, ?_⟩
  intro h
  exact h.unnamed "a" hroute

/-- Every login is under a non-empty name, by a connection that has no entry
under another one. -/
def Orderly : Registry C → List (Event C) → Prop
  | _, [] => True
  | mgr, .packet conn (.login request) :: events =>
    (request.serviceName ≠ "" ∧
      ∀ n, getConn mgr n = some conn → n = request.serviceName) ∧
    Orderly (handleLoginRequest getId mgr conn request) events
  | mgr, event :: events => Orderly (handle getId mgr event) events

theorem direct_of_orderly (hid : Function.Injective getId) (mgr : Registry C)
    (events : List (Event C)) (horderly : Orderly getId mgr events)
    (h : ∀ c, Direct getId mgr c) (c : C) : Direct getId (run getId mgr events) c := by
  induction events generalizing mgr with
  | nil => exact h c
  | cons event events ih =>
    cases event with
    | packet conn packet =>
      cases packet with
      | login request =>
        obtain ⟨⟨hempty, hone⟩, hrest⟩ := horderly
        exact ih _ hrest (direct_add hid mgr request.serviceName conn hempty hone h)
      | request request => exact ih mgr horderly h
      | response response => exact ih mgr horderly h
    | disconnect conn => exact ih _ horderly (direct_del hid mgr conn h)

/-- No route to a dead connection, in every orderly run. -/
theorem unrouted_of_orderly (hid : Function.Injective getId) (before after : List (Event C))
    (c : C) (horderly : Orderly getId empty before)
    (hlogin : ∀ event ∈ after, ¬ LogsIn c event) :
    Unrouted getId (run getId empty (before ++ .disconnect c :: after)) c := by
  have hempty : ∀ c, Direct getId (empty : Registry C) c := by
    intro c n hn
    cases hn
  have hdirect := direct_of_orderly getId hid empty before horderly hempty c
  exact unrouted_of_direct getId before after c hdirect hlogin

end BlackCat.RpcProxyServer
