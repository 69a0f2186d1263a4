import BlackCat.RpcRefinement

/-!
The RPC system with connections that go down. What is on the links of a provider
that is gone is lost, and so is what it sends later; the proxy removes it from its
registry and answers requests for it with an error. The proxy keeps no record of
the requests it has forwarded.

A run is compared with one in which nothing is lost: there a provider that is gone
has only stopped reading, and its links keep what was lost. This shadow takes no
notice of a disconnect, and differs from a run of the system only in that the
proxy may answer a request itself although the service is in its registry. So
every open entry still has exactly one ticket, and the tickets that will never
come back are those that a service had in hand when it went away.
-/
namespace BlackCat.RpcSystem

open ByteMemory Queues RpcMessages RpcTask RpcService ConnMgr
open RequestReply (Ticket tickets)

variable {P τ : Type*}

/-- The system, which connections went down, what the services among them had in
hand at that moment, and the responses that each service has sent. -/
structure Lossy (P τ : Type*) where
  sys : State P τ
  gone : P → Bool
  lost : P → List (Ticket String UInt64)
  given : P → List RpcResponse

/-- The links of the providers that are gone hold nothing. -/
def discard (gone : P → Bool) (s : State P τ) : State P τ :=
  { s with
    up := fun p => if gone p then [] else s.up p
    down := fun p => if gone p then [] else s.down p }

theorem discard_up {gone : P → Bool} (s : State P τ) {p : P} (hp : gone p = false) :
    (discard gone s).up p = s.up p := by
  simp [discard, hp]

theorem discard_down {gone : P → Bool} (s : State P τ) {p : P} (hp : gone p = false) :
    (discard gone s).down p = s.down p := by
  simp [discard, hp]

theorem discard_gone {gone : P → Bool} (s : State P τ) {p : P} (hp : gone p = true) :
    (discard gone s).up p = [] ∧ (discard gone s).down p = [] := by
  simp [discard, hp]

def Lossy.initial : Lossy P τ :=
  ⟨RpcSystem.initial, fun _ => false, fun _ => [], fun _ => []⟩

def responses : Packet → Option RpcResponse
  | .login _ => none
  | .request _ => none
  | .response response => some response

/-- A step to the state t of the system. -/
def Lossy.next (s : Lossy P τ) (t : State P τ) : Lossy P τ :=
  { s with
    sys := discard s.gone t
    given := fun p => s.given p ++ (t.up p).filterMap responses }

variable [DecidableEq P] (d : Deployment P)

/-- The connection of p goes down, and the proxy runs `OnDisconnect` for it. -/
def Lossy.disconnect (s : Lossy P τ) (p : P) : Lossy P τ where
  sys := discard (Function.update s.gone p true)
    { s.sys with mgr := RpcProxyServer.onDisconnect d.getId s.sys.mgr p }
  gone := Function.update s.gone p true
  lost := Function.update s.lost p ((view s.sys).serving p)
  given := s.given

/-- Any step of the system, or a disconnect at any moment. -/
inductive LossyStep (s : Lossy P τ) : Lossy P τ → Prop
  | step (t : State P τ) : Step d s.sys t → LossyStep s (s.next t)
  | disconnect (p : P) : (s.sys.node p).connected = true → s.gone p = false →
      LossyStep s (s.disconnect d p)

inductive LossyReachable : Lossy P τ → Prop
  | initial : LossyReachable .initial
  | step {s t : Lossy P τ} : LossyReachable s → LossyStep d s t → LossyReachable t

/-- A step in which nothing is lost, or the answer of the proxy to any request. -/
inductive ShadowStep (g : State P τ) : State P τ → Prop
  | step (t : State P τ) : Step d g t → ShadowStep g t
  | refuse (p : P) (request : RpcRequest) (rest : List Packet) :
      g.up p = .request request :: rest → ShadowStep g (g.refuse p request rest)

/-- What the shadow keeps: routes, and one ticket for each open entry. -/
structure Kept [Fintype P] (g : State P τ) : Prop where
  routed : Routed d g
  placed : RequestReply.Placed d.name (view g)
  tokens : RequestReply.Tokens d.name Call.service (view g)
  ledger : RequestReply.Ledger (view g)

variable {d}

theorem kept_initial [Fintype P] : Kept d (initial : State P τ) := by
  have hsound := (Reachable.initial (τ := τ)).view_reachable.sound d.distinct
  exact ⟨routed_initial, hsound.placed, hsound.tokens, hsound.ledger⟩

theorem Kept.step [Fintype P] {g g' : State P τ} (h : Kept d g) (hstep : ShadowStep d g g') :
    Kept d g' := by
  cases hstep with
  | step t hstep =>
    have hrouted := h.routed.step hstep
    rcases simulates h.routed h.placed h.tokens hstep with hsame | hnext
    · refine ⟨hrouted, ?_, ?_, ?_⟩
      all_goals rw [hsame]
      · exact h.placed
      · exact h.tokens
      · exact h.ledger
    · exact ⟨hrouted, h.placed.step _ _ hnext, h.tokens.step d.distinct h.placed hnext,
        h.ledger.step hnext⟩
  | refuse p request rest hup =>
    have hasking := view_asking_cons g p request rest hup
    refine ⟨h.routed.refuse p request rest hup, ?_, ?_, ?_⟩
    all_goals rw [view_refuse g p request rest hup]
    · exact h.placed.step_refuse _ p _ _ hasking
    · exact h.tokens.step_refuse p _ _ hasking
    · exact ⟨h.ledger.calls_nodup, h.ledger.invoked_nodup, h.ledger.accounted,
        h.ledger.open_once⟩

variable (d) in
/-- A state and its shadow: they agree on the providers, and on the links and the
registration of those that are not gone. What the others have in hand in the
shadow is what was lost. -/
structure Shadow (s : Lossy P τ) (g : State P τ) : Prop where
  node : g.node = s.sys.node
  up : ∀ p, s.gone p = false → g.up p = s.sys.up p
  down : ∀ p, s.gone p = false → g.down p = s.sys.down p
  cut : ∀ p, s.gone p = true → s.sys.up p = [] ∧ s.sys.down p = []
  route : ∀ n p, getConn s.sys.mgr n = some p ↔ getConn g.mgr n = some p ∧ s.gone p = false
  named : ∀ p, s.gone p = false →
    getName d.getId s.sys.mgr p = if getConn g.mgr (d.name p) = none then "" else d.name p
  lost : ∀ p, s.lost p = if s.gone p then (view g).serving p else []

omit [DecidableEq P] in
theorem shadow_initial : Shadow d (Lossy.initial : Lossy P τ) initial where
  node := rfl
  up := fun _ _ => rfl
  down := fun _ _ => rfl
  cut := fun _ hp => absurd hp Bool.false_ne_true
  route := by
    intro n p
    simp [Lossy.initial, RpcSystem.initial, getConn, empty]
  named := fun _ _ => rfl
  lost := fun _ => rfl

section Agree

variable {M : Type*} {gone : P → Bool} {q q' : P → List M}

theorem agree_put (h : ∀ p, gone p = false → q p = q' p) (r : P) (x : M) (p : P)
    (hp : gone p = false) : put q r x p = put q' r x p := by
  by_cases hr : p = r
  · subst p
    simp only [put, Function.update_self, h r hp]
  · simp only [put, Function.update_of_ne hr, h p hp]

theorem agree_update (h : ∀ p, gone p = false → q p = q' p) (r : P) (l : List M) (p : P)
    (hp : gone p = false) : Function.update q r l p = Function.update q' r l p := by
  by_cases hr : p = r
  · subst p
    simp only [Function.update_self]
  · simp only [Function.update_of_ne hr, h p hp]

end Agree

omit [DecidableEq P] in
theorem Shadow.advance {s : Lossy P τ} {g t g' : State P τ} (h : Shadow d s g)
    (hnode : g'.node = t.node) (hup : ∀ p, s.gone p = false → g'.up p = t.up p)
    (hdown : ∀ p, s.gone p = false → g'.down p = t.down p)
    (hmgr : t.mgr = s.sys.mgr) (hmgr' : g'.mgr = g.mgr)
    (hserving : ∀ p, s.gone p = true → (view g').serving p = (view g).serving p) :
    Shadow d (s.next t) g' where
  node := hnode
  up := fun p hp => (hup p hp).trans (discard_up t hp).symm
  down := fun p hp => (hdown p hp).trans (discard_down t hp).symm
  cut := fun p hp => discard_gone t hp
  route := by
    simp only [Lossy.next, discard, hmgr, hmgr']
    exact h.route
  named := by
    simp only [Lossy.next, discard, hmgr, hmgr']
    exact h.named
  lost := by
    intro p
    change s.lost p = if s.gone p then (view g').serving p else []
    rw [h.lost p]
    by_cases hp : s.gone p = true
    · rw [if_pos hp, if_pos hp, hserving p hp]
    · rw [if_neg hp, if_neg hp]

omit [DecidableEq P] in
theorem Shadow.live {s : Lossy P τ} {g : State P τ} (h : Shadow d s g) {p : P}
    (hp : s.sys.up p ≠ [] ∨ s.sys.down p ≠ []) : s.gone p = false := by
  by_contra hgone
  obtain ⟨hup, hdown⟩ := h.cut p (Bool.eq_true_of_not_eq_false hgone)
  rcases hp with hp | hp
  · exact hp hup
  · exact hp hdown

omit [DecidableEq P] in
theorem Shadow.up_eq {s : Lossy P τ} {g : State P τ} (h : Shadow d s g) {p : P}
    {packet : Packet} {rest : List Packet} (hup : s.sys.up p = packet :: rest) :
    s.gone p = false ∧ g.up p = packet :: rest := by
  have hp := h.live (Or.inl (hup ▸ List.cons_ne_nil packet rest))
  exact ⟨hp, (h.up p hp).trans hup⟩

omit [DecidableEq P] in
theorem Shadow.down_eq {s : Lossy P τ} {g : State P τ} (h : Shadow d s g) {p : P}
    {packet : Packet} {rest : List Packet} (hdown : s.sys.down p = packet :: rest) :
    s.gone p = false ∧ g.down p = packet :: rest := by
  have hp := h.live (Or.inr (hdown ▸ List.cons_ne_nil packet rest))
  exact ⟨hp, (h.down p hp).trans hdown⟩

theorem Shadow.proxyLogin {s : Lossy P τ} {g : State P τ} (h : Shadow d s g)
    (hid : Function.Injective d.getId) (p : P) (request : LoginRequest) (rest : List Packet)
    (hup : s.sys.up p = .login request :: rest) (hname : request.serviceName = d.name p) :
    Shadow d (s.next (s.sys.proxyRead d p (.login request) rest))
      (g.proxyRead d p (.login request) rest) := by
  obtain ⟨hp, hgup⟩ := h.up_eq hup
  have hconn : ∀ (mgr : Registry P) n, getConn (add d.getId mgr request.serviceName p) n =
      if n = d.name p then some p else getConn mgr n := by
    intro mgr n
    rw [getConn_add, hname]
  exact {
    node := h.node
    up := fun q hq => (agree_update h.up p rest q hq).trans
      (discard_up (s.sys.proxyRead d p (.login request) rest) hq).symm
    down := fun q hq => (h.down q hq).trans
      (discard_down (s.sys.proxyRead d p (.login request) rest) hq).symm
    cut := fun q hq => discard_gone _ hq
    route := by
      intro n q
      simp only [Lossy.next, discard, State.proxyRead, RpcProxyServer.dispatch,
        RpcProxyServer.handleLoginRequest, hconn]
      by_cases hn : n = d.name p
      · simp only [if_pos hn, Option.some.injEq]
        constructor
        · rintro rfl
          exact ⟨rfl, hp⟩
        · exact And.left
      · simp only [if_neg hn]
        exact h.route n q
    named := by
      intro q hq
      simp only [Lossy.next, discard, State.proxyRead, RpcProxyServer.dispatch,
        RpcProxyServer.handleLoginRequest, hconn]
      by_cases hqp : q = p
      · subst q
        rw [getName_add_self, if_pos rfl, if_neg (Option.some_ne_none p), hname]
      · rw [getName_add_of_ne hid _ _ p q hqp,
          if_neg (fun heq => hqp (d.distinct heq))]
        exact h.named q hq
    lost := by
      intro q
      rw [view_proxyLogin d g p request rest hgup]
      exact h.lost q
  }

theorem Shadow.proxyRequest {s : Lossy P τ} {g : State P τ} (h : Shadow d s g) (p : P)
    (request : RpcRequest) (rest : List Packet) (hup : s.sys.up p = .request request :: rest) :
    ∃ g', ShadowStep d g g' ∧
      Shadow d (s.next (s.sys.proxyRead d p (.request request) rest)) g' := by
  obtain ⟨hp, hgup⟩ := h.up_eq hup
  cases hdst : getConn s.sys.mgr request.serviceName with
  | none =>
    rw [proxyRead_offline d s.sys p request rest hdst]
    refine ⟨_, .refuse p request rest hgup, ?_⟩
    refine h.advance h.node (agree_update h.up p rest) (agree_put h.down p _) rfl rfl ?_
    intro q _
    rw [view_refuse g p request rest hgup]
    rfl
  | some q =>
    obtain ⟨hgdst, hq⟩ := (h.route _ q).mp hdst
    refine ⟨_, .step _ (.proxyRead p _ rest hgup), ?_⟩
    rw [proxyRead_online d s.sys p q request rest hdst]
    refine h.advance ?_ ?_ ?_ rfl rfl ?_
    · exact h.node
    · exact agree_update h.up p rest
    · rw [proxyRead_online d g p q request rest hgdst]
      exact agree_put h.down q _
    · intro r hr
      have hrq : r ≠ q := by
        rintro rfl
        rw [hq] at hr
        cases hr
      rw [view_proxyRequest_some d g p q request rest hgup hgdst]
      simp only [RequestReply.State.accept, put, Function.update_of_ne hrq]

theorem Shadow.proxyResponse {s : Lossy P τ} {g : State P τ} (h : Shadow d s g)
    (hrouted : Routed d g) (p : P) (response : RpcResponse) (rest : List Packet)
    (hup : s.sys.up p = .response response :: rest) :
    ∃ g', ShadowStep d g g' ∧
      Shadow d (s.next (s.sys.proxyRead d p (.response response) rest)) g' := by
  obtain ⟨hp, hgup⟩ := h.up_eq hup
  have hok := (hrouted.nodes p).up_ok (.response response) (hgup ▸ List.mem_cons_self ..)
  obtain ⟨q, hgdst, _⟩ := hrouted.exists_conn hok.2.2
  refine ⟨_, .step _ (.proxyRead p _ rest hgup), ?_⟩
  refine h.advance h.node (agree_update h.up p rest) ?_ rfl rfl ?_
  · rw [proxyRead_back d g p q response rest hgdst]
    by_cases hq : s.gone q = false
    · rw [proxyRead_back d s.sys p q response rest ((h.route _ q).mpr ⟨hgdst, hq⟩)]
      exact agree_put h.down q _
    · have hdst : getConn s.sys.mgr response.requestor = none := by
        by_contra hsome
        obtain ⟨q', hq'⟩ := Option.ne_none_iff_exists'.mp hsome
        obtain ⟨hgdst', hlive⟩ := (h.route _ q').mp hq'
        rw [hgdst] at hgdst'
        cases hgdst'
        exact hq hlive
      rw [proxyRead_nobody d s.sys p response rest hdst]
      intro r hr
      have hrq : r ≠ q := by
        rintro rfl
        exact hq hr
      simp only [State.relay, put, Function.update_of_ne hrq]
      exact h.down r hr
  · intro r hr
    have hrp : r ≠ p := by
      rintro rfl
      rw [hp] at hr
      cases hr
    rw [view_proxyResponse d g p q response rest hgup hgdst]
    simp only [RequestReply.State.reply, Function.update_of_ne hrp]

theorem Shadow.providerRead [Fintype P] {s : Lossy P τ} {g : State P τ} (h : Shadow d s g)
    (hkept : Kept d g) (p : P) (packet : Packet) (rest : List Packet)
    (hdown : s.sys.down p = packet :: rest) :
    Shadow d (s.next (s.sys.providerRead d p packet rest))
      (g.providerRead d p packet rest) := by
  obtain ⟨hp, hgdown⟩ := h.down_eq hdown
  have hok := (hkept.routed.nodes p).down_ok packet (hgdown ▸ List.mem_cons_self ..)
  refine h.advance ?_ h.up (agree_update h.down p rest) rfl rfl ?_
  · simp only [State.providerRead, h.node]
  · intro q _
    cases packet with
    | login request => exact hok.elim
    | request request => rw [view_providerRequest d g p request rest hgdown hok.1]
    | response response =>
      obtain ⟨cb, hcb, _⟩ := hkept.tokens.exists_pending hkept.placed
        (view_answered_cons g p response rest hgdown)
      rw [view_providerResponse d g p response rest hgdown cb hcb]
      rfl

theorem Shadow.step [Fintype P] {s : Lossy P τ} {g t : State P τ} (h : Shadow d s g)
    (hid : Function.Injective d.getId) (hkept : Kept d g) (hstep : Step d s.sys t) :
    ∃ g', ShadowStep d g g' ∧ Shadow d (s.next t) g' := by
  cases hstep with
  | connect p hconn =>
    refine ⟨g.connect d p, .step _ (.connect p (by rw [h.node]; exact hconn)), ?_⟩
    refine h.advance ?_ (agree_put h.up p _) h.down rfl rfl ?_
    · simp only [State.connect, h.node]
    · intro q _
      rw [view_connect]
  | register p typeName func =>
    refine ⟨g.register p typeName func, .step _ (.register p typeName func), ?_⟩
    refine h.advance ?_ h.up h.down rfl rfl ?_
    · simp only [State.register, h.node]
    · intro q _
      rw [view_register]
  | call p thread service requestName requestBody cbId hconn hfree =>
    refine ⟨g.call d p thread service requestName requestBody cbId, .step _
      (.call p thread service requestName requestBody cbId (by rw [h.node]; exact hconn)
        (by rw [h.node]; exact hfree)), ?_⟩
    refine h.advance ?_ ?_ h.down rfl rfl ?_
    · simp only [State.call, h.node]
    · simp only [State.call, RpcService.call]
      exact agree_put h.up p _
    · intro q _
      rw [view_call]
      rfl
  | proxyRead p packet rest hup =>
    cases packet with
    | login request =>
      obtain ⟨_, hgup⟩ := h.up_eq hup
      have hname : request.serviceName = d.name p :=
        (hkept.routed.nodes p).up_ok (.login request) (hgup ▸ List.mem_cons_self ..)
      exact ⟨_, .step _ (.proxyRead p _ rest hgup), h.proxyLogin hid p request rest hup hname⟩
    | request request => exact h.proxyRequest p request rest hup
    | response response => exact h.proxyResponse hkept.routed p response rest hup
  | providerRead p packet rest hdown =>
    exact ⟨_, .step _ (.providerRead p packet rest (h.down_eq hdown).2),
      h.providerRead hkept p packet rest hdown⟩
  | pop p taskMgr task goOn hrun hpop =>
    have hgrun : (g.node p).running = none := by rw [h.node]; exact hrun
    have hgpop : RpcTask.pop (g.node p).provider.taskMgr = (taskMgr, .took task goOn) := by
      rw [h.node]
      exact hpop
    refine ⟨g.pop p taskMgr task goOn, .step _ (.pop p taskMgr task goOn hgrun hgpop), ?_⟩
    refine h.advance ?_ h.up h.down rfl rfl ?_
    · simp only [State.pop, h.node]
    · intro q _
      obtain ⟨htasks, _, hgo⟩ := pop_took hgpop
      rw [hgo, (hkept.routed.nodes p).flag, view_pop g p taskMgr task hgrun htasks]
  | execute p request hrun =>
    have hgrun : (g.node p).running = some request := by rw [h.node]; exact hrun
    refine ⟨g.execute p request, .step _ (.execute p request hgrun), ?_⟩
    refine h.advance ?_ ?_ h.down rfl rfl ?_
    · simp only [State.execute, h.node]
    · simp only [State.execute, h.node]
      exact agree_put h.up p _
    · intro q _
      rw [view_execute g p request hgrun]

omit [DecidableEq P] in
theorem Shadow.route_del {s : Lossy P τ} {g : State P τ} (h : Shadow d s g)
    (hrouted : Routed d g) (p : P) (hp : s.gone p = false) (n : String) (q : P) :
    getConn (del d.getId s.sys.mgr p) n = some q ↔
      getConn g.mgr n = some q ∧ s.gone q = false ∧ q ≠ p := by
  have hlast : getConn g.mgr n = some q →
      ((getName d.getId s.sys.mgr p ≠ "" ∧ n = getName d.getId s.sys.mgr p) ↔ q = p) := by
    intro hq
    have hn := hrouted.registry n q hq
    rw [h.named p hp]
    constructor
    · rintro ⟨hne, hsame⟩
      by_cases hoff : getConn g.mgr (d.name p) = none
      · exact absurd (if_pos hoff) hne
      · rw [if_neg hoff, hn] at hsame
        exact d.distinct hsame
    · rintro rfl
      rw [hn] at hq
      have hon : ¬ getConn g.mgr (d.name q) = none := by
        rw [hq]
        exact Option.some_ne_none q
      rw [if_neg hon]
      exact ⟨d.named q, hn⟩
  rw [getConn_del]
  by_cases hdel : getName d.getId s.sys.mgr p ≠ "" ∧ n = getName d.getId s.sys.mgr p
  · rw [if_pos hdel]
    constructor
    · intro hnone
      cases hnone
    · rintro ⟨hq, _, hne⟩
      exact absurd ((hlast hq).mp hdel) hne
  · rw [if_neg hdel, h.route]
    constructor
    · rintro ⟨hq, hlive⟩
      exact ⟨hq, hlive, fun heq => hdel ((hlast hq).mpr heq)⟩
    · rintro ⟨hq, hlive, _⟩
      exact ⟨hq, hlive⟩

theorem Shadow.disconnect {s : Lossy P τ} {g : State P τ} (h : Shadow d s g)
    (hid : Function.Injective d.getId) (hrouted : Routed d g) (p : P) (hp : s.gone p = false) :
    Shadow d (s.disconnect d p) g := by
  have hlive : ∀ q, Function.update s.gone p true q = false ↔ s.gone q = false ∧ q ≠ p := by
    intro q
    by_cases hq : q = p
    · subst q
      simp
    · simp [hq]
  exact {
    node := h.node
    up := fun q hq => (h.up q ((hlive q).mp hq).1).trans (discard_up _ hq).symm
    down := fun q hq => (h.down q ((hlive q).mp hq).1).trans (discard_down _ hq).symm
    cut := fun q hq => discard_gone _ hq
    route := by
      intro n q
      simp only [Lossy.disconnect, discard, RpcProxyServer.onDisconnect, hlive]
      exact h.route_del hrouted p hp n q
    named := by
      intro q hq
      obtain ⟨hqlive, hqp⟩ := (hlive q).mp hq
      simp only [Lossy.disconnect, discard, RpcProxyServer.onDisconnect]
      rw [getName_del_of_ne hid _ p q hqp]
      exact h.named q hqlive
    lost := by
      intro q
      simp only [Lossy.disconnect]
      by_cases hq : q = p
      · subst q
        simp only [Function.update_self, if_true, view, h.node, h.up p hp, h.down p hp]
      · simp only [Function.update_of_ne hq]
        exact h.lost q
  }

/-- Every reachable state has a shadow in which nothing was lost. -/
theorem LossyReachable.exists_shadow [Fintype P] {s : Lossy P τ}
    (hid : Function.Injective d.getId) (h : LossyReachable d s) :
    ∃ g, Kept d g ∧ Shadow d s g := by
  induction h with
  | initial => exact ⟨RpcSystem.initial, kept_initial, shadow_initial⟩
  | step _ hstep ih =>
    obtain ⟨g, hkept, hshadow⟩ := ih
    cases hstep with
    | step t hstep =>
      obtain ⟨g', hnext, hshadow'⟩ := hshadow.step hid hkept hstep
      exact ⟨g', hkept.step hnext, hshadow'⟩
    | disconnect p _ hp => exact ⟨g, hkept, hshadow.disconnect hid hkept.routed p hp⟩

end BlackCat.RpcSystem
