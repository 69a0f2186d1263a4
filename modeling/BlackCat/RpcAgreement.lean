import BlackCat.RpcRefinement
import Mathlib.Tactic.Abel

/-!
Agreement and order of remote calls, for every interleaving of the system. A
callback that waits has exactly one request, task or response travelling for
it, wherever that is, so no response is ever without its callback. The
callbacks of one caller's calls to one service are invoked in call order.
-/
namespace BlackCat.RpcSystem

open ByteMemory Queues RpcMessages RpcTask RpcService ConnMgr
open RequestReply (Ticket tickets)

variable {P τ : Type*}

/-- The requestor and the callback id that a packet carries, if it does. -/
def carried : Packet → Option (String × UInt64)
  | .login _ => none
  | .request request => some (request.requestor, request.callbackId)
  | .response response => some (response.requestor, response.callbackId)

/-- The requestors and callback ids of all requests and responses in flight and of
all tasks queued or being run. -/
def carriers [Fintype P] (s : State P τ) : Multiset (String × UInt64) :=
  total (fun p => (s.up p).filterMap carried) +
    total (fun p => (s.node p).inHand.map fun request =>
      (request.requestor, request.callbackId)) +
    total (fun p => (s.down p).filterMap carried)

def ticketKey (t : Ticket String UInt64) : String × UInt64 := (t.requestor, t.id)

theorem carried_eq_add (link : List Packet) :
    (link.filterMap carried : Multiset (String × UInt64)) =
      Multiset.map ticketKey (link.filterMap asks : Multiset (Ticket String UInt64)) +
        Multiset.map ticketKey (link.filterMap answers : Multiset (Ticket String UInt64)) := by
  induction link with
  | nil => rfl
  | cons packet link ih =>
    cases packet with
    | login request => simpa [List.filterMap_cons, carried, asks, answers] using ih
    | request request =>
      simp only [List.filterMap_cons, carried, asks, answers, ← Multiset.cons_coe, ih,
        Multiset.map_cons, Multiset.cons_add]
      rfl
    | response response =>
      simp only [List.filterMap_cons, carried, asks, answers, ← Multiset.cons_coe, ih,
        Multiset.map_cons, Multiset.add_cons]
      rfl

theorem map_univ_sum [Fintype P] {M K : Type*} (f : M → K) (q : P → Multiset M) :
    Multiset.map f (∑ p, q p) = ∑ p, Multiset.map f (q p) :=
  map_sum (Multiset.mapAddMonoidHom f) _ _

theorem carriers_eq [Fintype P] (s : State P τ) :
    carriers s = (tickets (view s)).map ticketKey := by
  have htasks : ∀ p, ((s.node p).inHand.map fun request =>
      (request.requestor, request.callbackId)) =
        ((s.node p).inHand.map requestTicket).map ticketKey := by
    intro p
    rw [List.map_map]
    rfl
  simp only [tickets, Multiset.map_add, map_univ_sum, carriers, total, carried_eq_add, view,
    htasks, ← Multiset.coe_add, ← Multiset.map_coe, Finset.sum_add_distrib]
  abel

variable [DecidableEq P] (d : Deployment P)

/-- What holds in every reachable state of the calls, the callbacks waiting in
`callback_map_` and the callbacks invoked. -/
structure Agreement [Fintype P] (s : State P τ) : Prop where
  one_carrier : ∀ A id, (s.node A).provider.callbackMap id ≠ none →
    (carriers s).count (d.name A, id) = 1
  no_carrier : ∀ A id, (s.node A).provider.callbackMap id = none →
    (carriers s).count (d.name A, id) = 0
  valid_id : ∀ A response rest, s.down A = .response response :: rest →
    ∃ call, getCallbackFromId (s.node A).provider response.callbackId = some call ∧
      call.service = response.serviceName
  invoked_once : ∀ A, ((s.node A).invoked.map Prod.fst).Nodup
  accounted : ∀ A call, call ∈ (s.node A).calls ↔
    call ∈ (s.node A).invoked.map Prod.fst ∨ ∃ id, (s.node A).provider.callbackMap id = some call
  waiting : ∀ A id call, (s.node A).provider.callbackMap id = some call →
    call ∉ (s.node A).invoked.map Prod.fst
  quiescent : carriers s = 0 → ∀ A call, call ∈ (s.node A).calls →
    call ∈ (s.node A).invoked.map Prod.fst

variable {d}

theorem Reachable.count_carriers [Fintype P] {s : State P τ} (h : Reachable d s) (A : P)
    (id : UInt64) : (carriers s).count (d.name A, id) =
      if ((s.node A).provider.callbackMap id).isSome then 1 else 0 := by
  rw [carriers_eq]
  exact (h.view_reachable.sound d.distinct).tokens.count_key A id

theorem Reachable.callbackMap_eq_none [Fintype P] {s : State P τ} (h : Reachable d s)
    (hempty : carriers s = 0) (A : P) (id : UInt64) :
    (s.node A).provider.callbackMap id = none := by
  have hcount := h.count_carriers A id
  rw [hempty, Multiset.count_zero] at hcount
  by_contra hopen
  rw [if_pos (Option.isSome_iff_ne_none.mpr hopen)] at hcount
  exact Nat.zero_ne_one hcount

/-- Agreement of remote calls: in every reachable state of every deployment, a
waiting callback has exactly one carrier and no other id has one, a response
finds the callback of a call to the service that answers, so the branch for an
invalid callback id is not taken, and every call's callback is invoked once or
still waiting. -/
theorem rpc_agreement [Fintype P] {s : State P τ} (h : Reachable d s) : Agreement d s := by
  have hsound := h.view_reachable.sound d.distinct
  have hcount := h.count_carriers
  have haccounted := hsound.ledger.accounted
  exact {
    one_carrier := by
      intro A id hid
      rw [hcount, if_pos (Option.isSome_iff_ne_none.mpr hid)]
    no_carrier := by
      intro A id hid
      rw [hcount, hid]
      rfl
    valid_id := by
      intro A response rest hdown
      exact hsound.tokens.exists_pending hsound.placed (view_answered_cons s A response rest hdown)
    invoked_once := hsound.ledger.invoked_nodup
    accounted := haccounted
    waiting := fun A id call hcall => (hsound.ledger.open_once A id call hcall).1
    quiescent := by
      intro hempty A call hmem
      rcases (haccounted A call).mp hmem with hdone | ⟨id, hid⟩
      · exact hdone
      · cases (h.callbackMap_eq_none hempty A id).symm.trans hid
  }

def pair : Deployment Bool where
  name p := if p then "b" else "a"
  getId p := if p then 1 else 0
  distinct := by decide
  named := by decide

/-- The proxy has answered a call of `a` to `b` because `b` was not online, and has
forwarded a second one after its login. -/
def twoCalls : State Bool Unit :=
  let asked := ((initial.connect pair false).proxyRead pair false (onConnected "a") []).call pair
    false () "b" "Echo" [] 1
  let refused := asked.proxyRead pair false (.request ⟨"b", "a", 1, "Echo", []⟩) []
  let online := (refused.connect pair true).proxyRead pair true (onConnected "b") []
  (online.call pair false () "b" "Echo" [] 2).proxyRead pair false
    (.request ⟨"b", "a", 2, "Echo", []⟩) []

theorem reachable_twoCalls : Reachable pair twoCalls := by
  apply Reachable.step _ (.proxyRead false _ _ rfl)
  apply Reachable.step _ (.call false () "b" "Echo" [] 2 rfl rfl)
  apply Reachable.step _ (.proxyRead true _ _ rfl)
  apply Reachable.step _ (.connect true rfl)
  apply Reachable.step _ (.proxyRead false _ _ rfl)
  apply Reachable.step _ (.call false () "b" "Echo" [] 1 rfl rfl)
  apply Reachable.step _ (.proxyRead false _ _ rfl)
  apply Reachable.step _ (.connect false rfl)
  exact .initial

theorem rpc_agreement_twoCalls : Agreement pair twoCalls := rpc_agreement reachable_twoCalls

/-- Order of replies: in every reachable state, the callbacks invoked for the
calls of A to S from one thread are the first of these calls, in call order, and
all of them when no request, task or response is left. -/
theorem callbacks_in_call_order [Fintype P] [DecidableEq τ] {s : State P τ}
    (h : Reachable d s) (A S : P) (thread : τ) :
    ((s.node A).invoked.map Prod.fst).filter
        (fun call => call.service = d.name S ∧ call.thread = thread) <+:
      (s.node A).calls.filter
        (fun call => call.service = d.name S ∧ call.thread = thread) ∧
    (carriers s = 0 →
      ((s.node A).invoked.map Prod.fst).filter
          (fun call => call.service = d.name S ∧ call.thread = thread) =
        (s.node A).calls.filter
          (fun call => call.service = d.name S ∧ call.thread = thread)) := by
  have hordered := (h.view_reachable.sound d.distinct).ordered A S
  have hstart : ((s.node A).invoked.map Prod.fst).filter
      (fun call => call.service = d.name S) <+:
        (s.node A).calls.filter (fun call => call.service = d.name S) :=
    ⟨_, hordered.symm⟩
  have hthread := hstart.filter (fun call => decide (call.thread = thread))
  refine ⟨by simpa [List.filter_filter, Bool.and_comm] using hthread, fun hempty => ?_⟩
  have hnone : (view s).pending A = fun _ => none :=
    funext fun id => h.callbackMap_eq_none hempty A id
  rw [hnone, List.filterMap_none, List.append_nil] at hordered
  have hsame : (s.node A).calls.filter (fun call => call.service = d.name S) =
      ((s.node A).invoked.map Prod.fst).filter (fun call => call.service = d.name S) := hordered
  have hall := congrArg (List.filter fun call => decide (call.thread = thread)) hsame
  simpa [List.filter_filter, Bool.and_comm] using hall.symm

/-- The first reply is handled while the second call is with `b`. -/
def firstReplied : State Bool Unit :=
  twoCalls.providerRead pair false (.response ((⟨"b", "a", 1, "Echo", []⟩ : RpcRequest).respond
    (RpcError.result ⟨"b" ++ " is not online now"⟩))) []

theorem callbacks_in_call_order_firstReplied :
    ((firstReplied.node false).invoked.map Prod.fst).filter
        (fun call => call.service = pair.name true ∧ call.thread = ()) <+:
      (firstReplied.node false).calls.filter
        (fun call => call.service = pair.name true ∧ call.thread = ()) :=
  (callbacks_in_call_order (reachable_twoCalls.step (.providerRead false _ _ rfl)) false true
    ()).1

end BlackCat.RpcSystem
