import BlackCat.RpcProxyServer
import BlackCat.RpcService
import BlackCat.Runs

/-!
Where the proxy sends replies when names collide. Requests are forwarded by the
name of their service, responses by the name of their requestor, and a login binds
its name anew whether or not another connection has it. The proxy keeps no record
of who asked; the model does, in order to say that replies go back to the asker.
-/
namespace BlackCat.ReplyRouting

open ByteMemory RpcMessages ConnMgr RpcService

variable {C : Type*}

/-- The providers at the ends of the connections: their names and the ids of the
connections. -/
structure Providers (C : Type*) where
  name : C → String
  getId : C → UInt32

/-- A request received from the asker and forwarded to a server that can answer it. -/
structure Pending (C : Type*) where
  asker : C
  server : C
  request : RpcRequest
  deriving DecidableEq

/-- A response sent in answer to a request of the asker. -/
structure Reply (C : Type*) where
  asker : C
  sentOn : C
  deriving DecidableEq

/-- The proxy's registry, the connections that went down, the forwarded requests
without an answer, and the responses sent. -/
structure State (C : Type*) where
  mgr : Registry C
  down : List C
  pending : List (Pending C)
  replies : List (Reply C)

def start : State C := ⟨ConnMgr.empty, [], [], []⟩

inductive Event (C : Type*)
  | login (conn : C)
  | request (conn : C) (service requestName : String) (requestBody : List Byte) (cbId : UInt64)
  | answer (entry : Pending C) (result : RpcResult)
  | disconnect (conn : C)

/-- Every response was sent on the connection that asked. -/
def Faithful (s : State C) : Prop := ∀ reply ∈ s.replies, reply.sentOn = reply.asker

/-- Every answer still due would go to its asker or to nobody. -/
def Bound (s : State C) : Prop :=
  ∀ entry ∈ s.pending, ∀ other, getConn s.mgr entry.request.requestor = some other →
    other = entry.asker

/-- What holds as long as every event is fair. -/
structure Good (s : State C) : Prop where
  faithful : Faithful s
  bound : Bound s

theorem good_start : Good (start : State C) where
  faithful := by simp [Faithful, start]
  bound := by simp [Bound, start]

def IsAnswer (e : Event C) : Prop := ∃ entry result, e = .answer entry result

variable [DecidableEq C]

/-- Keeps the books of what the proxy sends on account of an asker's request. What
is sent on a connection that went down is lost. -/
def sent (s : State C) (asker : C) : Option (C × Packet) → State C
  | some (dst, .response _) => { s with replies := s.replies ++ [⟨asker, dst⟩] }
  | some (dst, .request request) =>
    if dst ∈ s.down then s else { s with pending := s.pending ++ [⟨asker, dst, request⟩] }
  | some (_, .login _) => s
  | none => s

/-- One event at the proxy. Providers log in and call under their own names and
answer honestly, in any order, while their connection is up. -/
def step (d : Providers C) (s : State C) : Event C → Option (State C)
  | .login conn =>
    if conn ∈ s.down then none
    else some { s with
      mgr := (RpcProxyServer.dispatch d.getId s.mgr conn (onConnected (d.name conn))).1 }
  | .request conn service requestName requestBody cbId =>
    if conn ∈ s.down then none
    else some (sent s conn (RpcProxyServer.dispatch d.getId s.mgr conn
      (sendRequestToServer (d.name conn) service requestName requestBody cbId)).2)
  | .answer entry result =>
    if entry ∈ s.pending then
      some (sent { s with pending := s.pending.erase entry } entry.asker
        (RpcProxyServer.dispatch d.getId s.mgr entry.server
          (.response (entry.request.respond result))).2)
    else none
  | .disconnect conn =>
    if conn ∈ s.down then none
    else some { s with
      mgr := RpcProxyServer.onDisconnect d.getId s.mgr conn
      down := s.down ++ [conn]
      pending := s.pending.filter fun entry => entry.server ≠ conn }

/-- A login does not take over the name under which an answer to another connection
is still due, and a request that is forwarded to be answered is not made under a
name that leads to another connection. -/
def Fair (d : Providers C) (s : State C) : Event C → Prop
  | .login conn =>
    ∀ entry ∈ s.pending, entry.request.requestor = d.name conn → entry.asker = conn
  | .request conn service _ _ _ =>
    ∀ server, getConn s.mgr service = some server → server ∉ s.down →
      ∀ other, getConn s.mgr (d.name conn) = some other → other = conn
  | .answer _ _ => True
  | .disconnect _ => True

variable {d : Providers C}

theorem step_answer {s t : State C} {entry : Pending C} {result : RpcResult}
    (h : step d s (.answer entry result) = some t) :
    entry ∈ s.pending ∧ t.mgr = s.mgr ∧ t.pending = s.pending.erase entry ∧
      t.replies = s.replies ++
        ((getConn s.mgr entry.request.requestor).map fun dst => ⟨entry.asker, dst⟩).toList := by
  by_cases hmem : entry ∈ s.pending
  · simp only [step, if_pos hmem, RpcProxyServer.dispatch, RpcProxyServer.handleRpcResponse,
      RpcRequest.respond] at h
    cases hconn : getConn s.mgr entry.request.requestor with
    | none =>
      simp only [hconn, sent] at h
      cases h
      exact ⟨hmem, rfl, rfl, by simp⟩
    | some dst =>
      simp only [hconn, sent] at h
      cases h
      exact ⟨hmem, rfl, rfl, rfl⟩
  · simp [step, if_neg hmem] at h

theorem step_request {s t : State C} {conn : C} {service requestName : String}
    {requestBody : List Byte} {cbId : UInt64}
    (h : step d s (.request conn service requestName requestBody cbId) = some t) :
    t.mgr = s.mgr ∧
      (getConn s.mgr service = none ∧ t.pending = s.pending ∧
          t.replies = s.replies ++ [⟨conn, conn⟩] ∨
        ∃ server, getConn s.mgr service = some server ∧ t.replies = s.replies ∧
          t.pending = s.pending ++ if server ∈ s.down then [] else
            [⟨conn, server, ⟨service, d.name conn, cbId, requestName, requestBody⟩⟩]) := by
  by_cases hdown : conn ∈ s.down
  · simp [step, if_pos hdown] at h
  · simp only [step, if_neg hdown, sendRequestToServer, RpcProxyServer.dispatch,
      RpcProxyServer.handleRpcRequest] at h
    cases hconn : getConn s.mgr service with
    | none =>
      simp only [hconn, sent] at h
      cases h
      exact ⟨rfl, Or.inl ⟨rfl, rfl, rfl⟩⟩
    | some server =>
      simp only [hconn, sent] at h
      by_cases hlost : server ∈ s.down
      · rw [if_pos hlost] at h
        cases h
        exact ⟨rfl, Or.inr ⟨server, rfl, rfl, by simp [hlost]⟩⟩
      · rw [if_neg hlost] at h
        cases h
        exact ⟨rfl, Or.inr ⟨server, rfl, rfl, by simp [hlost]⟩⟩

theorem step_login {s t : State C} {conn : C} (h : step d s (.login conn) = some t) :
    t = { s with mgr := add d.getId s.mgr (d.name conn) conn } := by
  by_cases hdown : conn ∈ s.down
  · simp [step, if_pos hdown] at h
  · simp only [step, if_neg hdown] at h
    exact (Option.some.inj h).symm

theorem step_disconnect {s t : State C} {conn : C} (h : step d s (.disconnect conn) = some t) :
    t = { s with
      mgr := del d.getId s.mgr conn
      down := s.down ++ [conn]
      pending := s.pending.filter fun entry => entry.server ≠ conn } := by
  by_cases hdown : conn ∈ s.down
  · simp [step, if_pos hdown] at h
  · simp only [step, if_neg hdown] at h
    exact (Option.some.inj h).symm

theorem Good.keep {s t : State C} {e : Event C} (hs : Good s) (hfair : Fair d s e)
    (h : step d s e = some t) : Good t := by
  cases e with
  | login conn =>
    rw [step_login h]
    refine ⟨hs.faithful, ?_⟩
    intro entry hmem other hother
    rw [getConn_add] at hother
    by_cases hname : entry.request.requestor = d.name conn
    · rw [if_pos hname] at hother
      rw [hfair entry hmem hname]
      exact (Option.some.inj hother).symm
    · rw [if_neg hname] at hother
      exact hs.bound entry hmem other hother
  | request conn service requestName requestBody cbId =>
    obtain ⟨hmgr, ⟨_, hpending, hreplies⟩ | ⟨server, hserver, hreplies, hpending⟩⟩ :=
      step_request h
    · refine ⟨?_, ?_⟩
      · rw [Faithful, hreplies]
        exact List.forall_mem_append.mpr ⟨hs.faithful, by simp⟩
      · rw [Bound, hpending, hmgr]
        exact hs.bound
    · refine ⟨?_, ?_⟩
      · rw [Faithful, hreplies]
        exact hs.faithful
      · rw [Bound, hpending, hmgr]
        intro entry hmem other hother
        rcases List.mem_append.mp hmem with hold | hnew
        · exact hs.bound entry hold other hother
        · by_cases hlost : server ∈ s.down
          · simp [hlost] at hnew
          · rw [if_neg hlost, List.mem_singleton] at hnew
            subst entry
            exact hfair server hserver hlost other hother
  | answer entry result =>
    obtain ⟨hmem, hmgr, hpending, hreplies⟩ := step_answer h
    refine ⟨?_, ?_⟩
    · rw [Faithful, hreplies]
      refine List.forall_mem_append.mpr ⟨hs.faithful, ?_⟩
      intro reply hreply
      simp only [Option.mem_toList, Option.map_eq_some_iff] at hreply
      obtain ⟨dst, hdst, rfl⟩ := hreply
      exact hs.bound entry hmem dst hdst
    · rw [Bound, hpending, hmgr]
      intro other hother
      exact hs.bound other (List.mem_of_mem_erase hother)
  | disconnect conn =>
    rw [step_disconnect h]
    refine ⟨hs.faithful, ?_⟩
    intro entry hmem other hother
    rw [getConn_del] at hother
    by_cases hlast : getName d.getId s.mgr conn ≠ "" ∧
        entry.request.requestor = getName d.getId s.mgr conn
    · rw [if_pos hlast] at hother
      cases hother
    · rw [if_neg hlast] at hother
      exact hs.bound entry (List.mem_of_mem_filter hmem) other hother

theorem exists_unfaithful {s : State C} {entry : Pending C} (hmem : entry ∈ s.pending)
    {other : C} (hother : getConn s.mgr entry.request.requestor = some other)
    (hne : other ≠ entry.asker) :
    ∃ later t, (∀ e ∈ later, IsAnswer e) ∧ Runs.run (step d) s later = some t ∧
      ¬ Faithful t := by
  obtain ⟨t, ht⟩ : ∃ t, step d s (.answer entry ⟨"", []⟩) = some t := by
    simp [step, if_pos hmem]
  refine ⟨[.answer entry ⟨"", []⟩], t, ?_, Runs.run_cons ht rfl, ?_⟩
  · intro e he
    rw [List.mem_singleton.mp he]
    exact ⟨entry, _, rfl⟩
  · intro hfaithful
    obtain ⟨_, _, _, hreplies⟩ := step_answer ht
    rw [hother] at hreplies
    refine hne (hfaithful ⟨entry.asker, other⟩ ?_)
    rw [hreplies]
    exact List.mem_append_right _ (List.mem_singleton_self _)

/-- An event that is not fair makes some answer lead elsewhere. -/
theorem exists_misled {s t : State C} {e : Event C} (hfair : ¬ Fair d s e)
    (h : step d s e = some t) :
    ∃ entry ∈ t.pending, ∃ other,
      getConn t.mgr entry.request.requestor = some other ∧ other ≠ entry.asker := by
  cases e with
  | login conn =>
    rw [step_login h]
    simp only [Fair, not_forall] at hfair
    obtain ⟨entry, hmem, hname, hne⟩ := hfair
    refine ⟨entry, hmem, conn, ?_, Ne.symm hne⟩
    rw [getConn_add, if_pos hname]
  | request conn service requestName requestBody cbId =>
    simp only [Fair, not_forall] at hfair
    obtain ⟨server, hserver, hup, other, hother, hne⟩ := hfair
    obtain ⟨hmgr, ⟨hnone, _⟩ | ⟨server', hserver', _, hpending⟩⟩ := step_request h
    · rw [hserver] at hnone
      cases hnone
    · rw [hserver] at hserver'
      cases hserver'
      rw [if_neg hup] at hpending
      refine ⟨⟨conn, server, ⟨service, d.name conn, cbId, requestName, requestBody⟩⟩, ?_, other,
        ?_, hne⟩
      · rw [hpending]
        exact List.mem_append_right _ (List.mem_singleton_self _)
      · rw [hmgr]
        exact hother
  | answer entry result => exact absurd trivial hfair
  | disconnect conn => exact absurd trivial hfair

theorem good_of_run {events : List (Event C)} {s t : State C} (hs : Good s)
    (hfair : Runs.Always (step d) (Fair d) s events)
    (hrun : Runs.run (step d) s events = some t) : Good t :=
  Runs.invariant (fun _ _ _ hu he hstep => Good.keep hu he hstep) hs hfair hrun

theorem fair_of_answers {later : List (Event C)} (h : ∀ e ∈ later, IsAnswer e) (s : State C) :
    Runs.Always (step d) (Fair d) s later := by
  apply Runs.always_of_forall
  intro e he t
  obtain ⟨entry, result, rfl⟩ := h e he
  trivial

/-- Whatever answers follow whatever part of a run, every response goes back to the
connection that asked, exactly when every login and request of the run is fair. -/
theorem replies_to_asker_iff (d : Providers C) (events : List (Event C)) (s : State C)
    (hrun : Runs.run (step d) start events = some s) :
    (∀ before after u, events = before ++ after → Runs.run (step d) start before = some u →
        ∀ later v, (∀ e ∈ later, IsAnswer e) → Runs.run (step d) u later = some v →
          Faithful v) ↔
      Runs.Always (step d) (Fair d) start events := by
  constructor
  · intro h
    by_contra hbreak
    obtain ⟨before, e, after, u, v, rfl, hbefore, _, hfair, hstep, _⟩ :=
      Runs.exists_first_break hrun hbreak
    obtain ⟨entry, hmem, other, hother, hne⟩ := exists_misled hfair hstep
    obtain ⟨later, t, hlater, ht, hnot⟩ := exists_unfaithful (d := d) hmem hother hne
    refine hnot (h (before ++ [e]) after v (by simp) ?_ later t hlater ht)
    exact Runs.run_concat hbefore hstep
  · rintro hfair before after u rfl hbefore later v hlater hv
    have hgood := good_of_run good_start ((Runs.always_append hbefore).mp hfair).1 hbefore
    exact (good_of_run hgood (fair_of_answers hlater u) hv).faithful

/-- Two providers that have one name, and a service. -/
def namesakes : Providers UInt32 := ⟨fun conn => if conn = 3 then "s" else "a", id⟩

/-- The request that the first of them makes, as it is forwarded. -/
def forwarded : Pending UInt32 := ⟨1, 3, ⟨"s", "a", 7, "", []⟩⟩

/-- Only one of the two is there. -/
theorem replies_to_asker_alone :
    ∃ s, Runs.run (step namesakes) start [.login 3, .login 1, .request 1 "s" "" [] 7,
        .answer forwarded ⟨"", []⟩] = some s ∧ Faithful s := by
  refine ⟨_, rfl, ?_⟩
  refine (replies_to_asker_iff namesakes [.login 3, .login 1, .request 1 "s" "" [] 7,
    .answer forwarded ⟨"", []⟩] _ rfl).mpr ?_ _ [] _
      (List.append_nil _).symm rfl [] _ (by simp) rfl
  refine .cons (.cons (.cons (.cons trivial rfl ?_) rfl ?_) rfl ?_) rfl ?_
  · trivial
  · intro server _ _ other hother
    exact (Option.some.inj hother).symm
  · intro entry hmem
    exact absurd hmem List.not_mem_nil
  · intro entry hmem
    exact absurd hmem List.not_mem_nil

/-- The other one logs in while the answer is due, and receives it. -/
theorem reply_to_namesake :
    ∃ s, Runs.run (step namesakes) start [.login 3, .login 1, .request 1 "s" "" [] 7, .login 2,
        .answer forwarded ⟨"", []⟩] = some s ∧ s.replies = [⟨1, 2⟩] ∧ ¬ Faithful s := by
  refine ⟨_, rfl, by decide, ?_⟩
  intro h
  exact absurd (h ⟨1, 2⟩ (by decide)) (by decide)

end BlackCat.ReplyRouting
