import BlackCat.AnswerOrigins
import BlackCat.RpcAgreement

/-!
Which calls stay without an answer when services go away. When nothing is in
flight and no task is queued, the callbacks still waiting at a connected provider
are those of the requests that a service had in hand when its connection went
down: the proxy answers requests that arrive later, but not those it has already
forwarded.
-/
namespace BlackCat.RpcSystem

open RpcMessages RpcTask RpcService ConnMgr
open RequestReply (mem_tickets)

variable {P τ : Type*}

def Live (s : Lossy P τ) (A : P) : Prop :=
  (s.sys.node A).connected = true ∧ s.gone A = false

/-- No message is in flight and no task is queued or being run. -/
def Quiet (s : Lossy P τ) : Prop :=
  ∀ p, s.sys.up p = [] ∧ s.sys.down p = [] ∧ (s.sys.node p).inHand = []

/-- No provider that is still connected waits for a callback: each of its calls was
answered, by the service or with the proxy's error. -/
def AllAnswered (d : Deployment P) (s : Lossy P τ) : Prop :=
  ∀ A, Live s A → (∀ id, (s.sys.node A).provider.callbackMap id = none) ∧
    ∀ call ∈ (s.sys.node A).calls, ∃ result,
      (call, result) ∈ (s.sys.node A).invoked ∧ Answer d s A call.service result

variable [Fintype P] {d : Deployment P}

/-- In a quiet state a callback waits exactly if its request was in the hands of a
service that went away. -/
theorem waiting_iff_lost {s : Lossy P τ} {g : State P τ} (hkept : Kept d g)
    (hshadow : Shadow d s g) (hquiet : Quiet s) {A : P} (hA : s.gone A = false) (id : UInt64) :
    (s.sys.node A).provider.callbackMap id ≠ none ↔
      ∃ p, ∃ t ∈ s.lost p, t.requestor = d.name A ∧ t.id = id := by
  have hpending : (view g).pending A id = (s.sys.node A).provider.callbackMap id := by
    simp only [view, hshadow.node]
  rw [← hpending]
  constructor
  · intro hopen
    obtain ⟨call, hcall⟩ := Option.ne_none_iff_exists'.mp hopen
    have hcount := hkept.tokens A call.service id
    rw [hcall, Option.map_some, if_pos rfl] at hcount
    have hmem := Multiset.count_pos.mp (hcount ▸ Nat.one_pos)
    obtain ⟨p, hp⟩ := (mem_tickets (view g) _).mp hmem
    by_cases hgone : s.gone p = true
    · have hne : d.name A ≠ d.name p := by
        intro heq
        rw [d.distinct heq, hgone] at hA
        cases hA
      rcases hp with hask | hserve | hanswer
      · exact absurd (hkept.placed.asking p _ hask) hne
      · refine ⟨p, ⟨d.name A, call.service, id⟩, ?_, rfl, rfl⟩
        rw [hshadow.lost p, if_pos hgone]
        exact hserve
      · exact absurd (hkept.placed.answered p _ hanswer) hne
    · have hlive := Bool.eq_false_of_not_eq_true hgone
      obtain ⟨hup, hdown, htasks⟩ := hquiet p
      rw [← hshadow.up p hlive] at hup
      rw [← hshadow.down p hlive] at hdown
      rw [← hshadow.node] at htasks
      simp [view, hup, hdown, htasks] at hp
  · rintro ⟨p, t, ht, hrequestor, rfl⟩ hnone
    rw [hshadow.lost p] at ht
    split at ht
    · have hmem : (⟨d.name A, t.service, t.id⟩ : RequestReply.Ticket String UInt64) ∈
          RequestReply.tickets (view g) := by
        rw [← hrequestor]
        exact (mem_tickets (view g) t).mpr ⟨p, Or.inr (Or.inl ht)⟩
      have hopen := hkept.tokens.pending hmem
      rw [hnone] at hopen
      cases hopen
    · cases ht

variable [DecidableEq P]

/-- In every reachable state in which nothing is in flight and no task is queued, the
connected providers have all their calls answered exactly when no service went
away with a request of one of them in hand. -/
theorem all_answered_iff (hid : Function.Injective d.getId) {s : Lossy P τ}
    (h : LossyReachable d s) (hquiet : Quiet s) :
    AllAnswered d s ↔ ∀ p, ∀ t ∈ s.lost p, ∀ A, Live s A → t.requestor ≠ d.name A := by
  obtain ⟨g, hkept, hshadow⟩ := h.exists_shadow hid
  constructor
  · intro hall p t ht A hlive hrequestor
    have hwaiting := (waiting_iff_lost hkept hshadow hquiet hlive.2 t.id).mpr
      ⟨p, t, ht, hrequestor, rfl⟩
    exact hwaiting ((hall A hlive).1 t.id)
  · intro hlost A hlive
    have hnone : ∀ id, (s.sys.node A).provider.callbackMap id = none := by
      intro id
      by_contra hopen
      obtain ⟨p, t, ht, hrequestor, _⟩ :=
        (waiting_iff_lost hkept hshadow hquiet hlive.2 id).mp hopen
      exact hlost p t ht A hlive hrequestor
    refine ⟨hnone, ?_⟩
    intro call hcall
    have haccounted := hkept.ledger.accounted A call
    simp only [view, hshadow.node] at haccounted
    rcases haccounted.mp hcall with hdone | ⟨id, hwaiting⟩
    · obtain ⟨done, hmem, rfl⟩ := List.mem_map.mp hdone
      exact ⟨done.2, hmem, (h.genuine hid).invoked A done hmem⟩
    · rw [hnone id] at hwaiting
      cases hwaiting

def bothOnline : Lossy Bool Unit :=
  let connected := Lossy.initial.next (initial.connect pair false)
  let online := connected.next (connected.sys.proxyRead pair false (onConnected "a") [])
  let joined := online.next (online.sys.connect pair true)
  joined.next (joined.sys.proxyRead pair true (onConnected "b") [])

theorem reachable_bothOnline : LossyReachable pair bothOnline := by
  apply LossyReachable.step _ (.step _ (.proxyRead true _ _ rfl))
  apply LossyReachable.step _ (.step _ (.connect true rfl))
  apply LossyReachable.step _ (.step _ (.proxyRead false _ _ rfl))
  apply LossyReachable.step _ (.step _ (.connect false rfl))
  exact .initial

/-- `b` goes away, a call of `a` to it is answered by the proxy, and the answer is
handled. -/
def refusedCall : Lossy Bool Unit :=
  let alone := bothOnline.disconnect pair true
  let asked := alone.next (alone.sys.call pair false () "b" "Echo" [] 1)
  let refused := asked.next
    (asked.sys.proxyRead pair false (.request ⟨"b", "a", 1, "Echo", []⟩) [])
  refused.next (refused.sys.providerRead pair false
    (.response ((⟨"b", "a", 1, "Echo", []⟩ : RpcRequest).respond
      (RpcError.result ⟨"b" ++ " is not online now"⟩))) [])

theorem reachable_refusedCall : LossyReachable pair refusedCall := by
  apply LossyReachable.step _ (.step _ (.providerRead false _ _ rfl))
  apply LossyReachable.step _ (.step _ (.proxyRead false _ _ rfl))
  apply LossyReachable.step _ (.step _ (.call false () "b" "Echo" [] 1 rfl rfl))
  exact reachable_bothOnline.step (.disconnect true rfl rfl)

theorem all_answered_refusedCall : AllAnswered pair refusedCall := by
  have hid : Function.Injective pair.getId := by decide
  have hquiet : Quiet refusedCall := by
    intro p
    cases p <;> exact ⟨rfl, rfl, rfl⟩
  refine (all_answered_iff hid reachable_refusedCall hquiet).mpr ?_
  intro p t ht
  have hnothing : refusedCall.lost p = [] := by cases p <;> rfl
  rw [hnothing] at ht
  cases ht

/-- `b` goes away when a call of `a` has just been forwarded to it. -/
def lostCall : Lossy Bool Unit :=
  let asked := bothOnline.next (bothOnline.sys.call pair false () "b" "Echo" [] 1)
  (asked.next (asked.sys.proxyRead pair false (.request ⟨"b", "a", 1, "Echo", []⟩) [])).disconnect
    pair true

/-- Then `a` waits forever: nothing is left that could answer it. -/
theorem call_lost_with_service :
    LossyReachable pair lostCall ∧ Quiet lostCall ∧ Live lostCall false ∧
      (lostCall.sys.node false).provider.callbackMap 1 = some ⟨(), "b", 0⟩ ∧
      ¬ AllAnswered pair lostCall := by
  have hreach : LossyReachable pair lostCall := by
    apply LossyReachable.step _ (.disconnect true rfl rfl)
    apply LossyReachable.step _ (.step _ (.proxyRead false _ _ rfl))
    exact reachable_bothOnline.step (.step _ (.call false () "b" "Echo" [] 1 rfl rfl))
  have hwaiting : (lostCall.sys.node false).provider.callbackMap 1 = some ⟨(), "b", 0⟩ := rfl
  refine ⟨hreach, ?_, ⟨rfl, rfl⟩, hwaiting, ?_⟩
  · intro p
    cases p <;> exact ⟨rfl, rfl, rfl⟩
  · intro hall
    have hnone := (hall false ⟨rfl, rfl⟩).1 1
    rw [hwaiting] at hnone
    cases hnone

end BlackCat.RpcSystem
