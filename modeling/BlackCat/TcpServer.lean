import BlackCat.Loops
import BlackCat.Runs
import Mathlib.Data.Finset.Basic
import Mathlib.Data.Nat.Find
import Mathlib.Data.UInt

/-!
`TcpServer` and the `IndexMgr` that gives its connections their ids. An id is
taken when a connection object is made, which is before a peer is accepted on
it, and released by `ConnectionDown` when the connection runs `OnDisconnect`.
What the server's owner does in its callbacks is a parameter.
-/
namespace BlackCat.TcpServer

open Loops Runs

/-- `IndexMgr<T>`: `id_` and `id_set_`. -/
structure IndexMgr (T : Type) where
  id : T
  idSet : Finset T

namespace IndexMgr

variable {T : Type} [DecidableEq T]

/-- A round of the loop of `GetId`, which looks for an id that is not in use. -/
def getIdRound [Add T] [One T] (idSet : Finset T) (id : T) : Round T T :=
  if id ∈ idSet then .again (id + 1) else .leave id

def getId [Add T] [One T] (rounds : ℕ) (mgr : IndexMgr T) : Option (T × IndexMgr T) :=
  (Loops.run (getIdRound mgr.idSet) rounds mgr.id).map fun id =>
    (id, ⟨id + 1, insert id mgr.idSet⟩)

def putId (mgr : IndexMgr T) (id : T) : IndexMgr T := { mgr with idSet := mgr.idSet.erase id }

theorem getId_spec [Add T] [One T] {rounds : ℕ} {mgr next : IndexMgr T} {id : T}
    (h : mgr.getId rounds = some (id, next)) :
    id ∉ mgr.idSet ∧ next = ⟨id + 1, insert id mgr.idSet⟩ := by
  obtain ⟨found, hrun, hpair⟩ := Option.map_eq_some_iff.mp h
  cases hpair
  obtain ⟨last, _, hleave⟩ := exists_last_round _ hrun
  unfold getIdRound at hleave
  split at hleave
  · cases hleave
  · rename_i hfree
    cases hleave
    exact ⟨hfree, rfl⟩

theorem getId_of_notMem [Add T] [One T] {mgr : IndexMgr T} (h : mgr.id ∉ mgr.idSet)
    (rounds : ℕ) :
    mgr.getId (rounds + 1) = some (mgr.id, ⟨mgr.id + 1, insert mgr.id mgr.idSet⟩) := by
  have hround : getIdRound mgr.idSet mgr.id = .leave mgr.id := by rw [getIdRound, if_neg h]
  rw [getId, run_leave _ hround]
  rfl

theorem add_one_add_ofNat (id : UInt32) (k : ℕ) :
    id + 1 + UInt32.ofNat k = id + UInt32.ofNat (k + 1) := by
  rw [UInt32.ofNat_add, UInt32.add_assoc, UInt32.add_comm 1]
  rfl

theorem run_getIdRound (idSet : Finset UInt32) (k : ℕ) (id : UInt32)
    (hused : ∀ j < k, id + UInt32.ofNat j ∈ idSet) (hfree : id + UInt32.ofNat k ∉ idSet) :
    Loops.run (getIdRound idSet) (k + 1) id = some (id + UInt32.ofNat k) := by
  induction k generalizing id with
  | zero =>
    have hzero : id + UInt32.ofNat 0 = id := by simp
    rw [hzero] at hfree ⊢
    exact run_leave _ (by rw [getIdRound, if_neg hfree]) 0
  | succ k ih =>
    have hfirst : id ∈ idSet := by simpa using hused 0 (Nat.succ_pos k)
    rw [run_again _ (by rw [getIdRound, if_pos hfirst]), ih (id + 1), add_one_add_ofNat]
    · intro j hj
      rw [add_one_add_ofNat]
      exact hused (j + 1) (Nat.succ_lt_succ hj)
    · rw [add_one_add_ofNat]
      exact hfree

theorem exists_first_free (idSet : Finset UInt32) (id : UInt32) {free : UInt32}
    (h : free ∉ idSet) :
    ∃ k < UInt32.size, (∀ j < k, id + UInt32.ofNat j ∈ idSet) ∧
      id + UInt32.ofNat k ∉ idSet := by
  have hreach : id + UInt32.ofNat (free - id).toNat ∉ idSet := by
    rwa [UInt32.ofNat_toNat, UInt32.add_comm, UInt32.sub_add_cancel]
  have hsome : ∃ k, id + UInt32.ofNat k ∉ idSet := ⟨_, hreach⟩
  have hle := Nat.find_min' hsome hreach
  refine ⟨Nat.find hsome, Nat.lt_of_le_of_lt hle (free - id).toNat_lt_size, ?_,
    Nat.find_spec hsome⟩
  intro j hj
  by_contra hnot
  exact Nat.find_min hsome hj hnot

/-- As many rounds as there are ids are enough: the loop of `GetId` does not end
only if every id is in use. -/
theorem getId_eq_none_iff (mgr : IndexMgr UInt32) :
    mgr.getId UInt32.size = none ↔ ∀ id, id ∈ mgr.idSet := by
  rw [getId, Option.map_eq_none_iff]
  constructor
  · intro h id
    by_contra hfree
    obtain ⟨k, hk, hused, hnext⟩ := exists_first_free mgr.idSet mgr.id hfree
    rw [run_mono _ hk (run_getIdRound mgr.idSet k mgr.id hused hnext)] at h
    cases h
  · intro h
    apply run_eq_none_of_invariant (getIdRound mgr.idSet) (fun _ => True) _ trivial
    intro id _
    exact ⟨id + 1, by rw [getIdRound, if_pos (h id)], trivial⟩

end IndexMgr

/-- A `TcpConnection` made by `StartAccept`: which one it is, and its `conn_id_`. -/
structure Connection where
  serial : ℕ
  connId : UInt32
  deriving DecidableEq, Repr

/-- `OnAccept` and `cb_.OnDisconnect` of the owner, on its state. -/
structure CallBacks (α : Type*) where
  onAccept : α → Connection → α
  onDisconnect : α → Connection → α

/-- The connection that waits to be accepted, the number of connections made, those
accepted, those that ran `OnDisconnect` in this order, and the owner's state. -/
structure State (α : Type*) where
  connIdMgr : IndexMgr UInt32
  waiting : Option Connection
  created : ℕ
  accepted : List Connection
  down : List Connection
  app : α

inductive Event
  | startAccept
  | acceptDone
  | acceptFail
  | disconnect (conn : Connection)
  deriving DecidableEq, Repr

variable {α : Type*}

/-- A server before its constructor calls `StartAccept`. -/
def fresh (app : α) : State α := ⟨⟨0, ∅⟩, none, 0, [], [], app⟩

def startAccept (s : State α) : Option (State α) :=
  (s.connIdMgr.getId UInt32.size).map fun (id, mgr) =>
    { s with connIdMgr := mgr, waiting := some ⟨s.created, id⟩, created := s.created + 1 }

/-- `TcpConnection::OnDisconnect`: the owner's callback, then `ConnectionDown`. -/
def onDisconnect (cb : CallBacks α) (s : State α) (conn : Connection) : State α :=
  { s with
    connIdMgr := s.connIdMgr.putId conn.connId
    down := s.down ++ [conn]
    app := cb.onDisconnect s.app conn }

/-- The completion of the accept is `acceptDone` or `acceptFail`, and its handler
ends with `startAccept`; other threads may run in between. Any accepted
connection may run `OnDisconnect`, also again. -/
def step (cb : CallBacks α) (s : State α) : Event → Option (State α)
  | .startAccept =>
    match s.waiting with
    | none => startAccept s
    | some _ => none
  | .acceptDone =>
    match s.waiting with
    | none => none
    | some conn =>
      some { s with
        waiting := none
        accepted := s.accepted ++ [conn]
        app := cb.onAccept s.app conn }
  | .acceptFail =>
    match s.waiting with
    | none => none
    | some _ => some { s with waiting := none }
  | .disconnect conn => if conn ∈ s.accepted then some (onDisconnect cb s conn) else none

variable {cb : CallBacks α}

theorem step_startAccept {s t : State α} (h : step cb s .startAccept = some t) :
    s.waiting = none ∧ ∃ id mgr, s.connIdMgr.getId UInt32.size = some (id, mgr) ∧
      t = { s with
        connIdMgr := mgr, waiting := some ⟨s.created, id⟩, created := s.created + 1 } := by
  cases hw : s.waiting with
  | some conn => simp [step, hw] at h
  | none =>
    simp only [step, hw, startAccept] at h
    obtain ⟨⟨id, mgr⟩, hget, ht⟩ := Option.map_eq_some_iff.mp h
    exact ⟨rfl, id, mgr, hget, ht.symm⟩

theorem step_acceptDone {s t : State α} (h : step cb s .acceptDone = some t) :
    ∃ conn, s.waiting = some conn ∧
      t = { s with
        waiting := none, accepted := s.accepted ++ [conn], app := cb.onAccept s.app conn } := by
  cases hw : s.waiting with
  | none => simp [step, hw] at h
  | some conn =>
    simp only [step, hw] at h
    exact ⟨conn, rfl, (Option.some.inj h).symm⟩

theorem step_acceptFail {s t : State α} (h : step cb s .acceptFail = some t) :
    ∃ conn, s.waiting = some conn ∧ t = { s with waiting := none } := by
  cases hw : s.waiting with
  | none => simp [step, hw] at h
  | some conn =>
    simp only [step, hw] at h
    exact ⟨conn, rfl, (Option.some.inj h).symm⟩

theorem step_disconnect {s t : State α} {conn : Connection}
    (h : step cb s (.disconnect conn) = some t) :
    conn ∈ s.accepted ∧ t = onDisconnect cb s conn := by
  by_cases hmem : conn ∈ s.accepted
  · simp only [step, if_pos hmem] at h
    exact ⟨hmem, (Option.some.inj h).symm⟩
  · simp [step, if_neg hmem] at h

theorem created_le_step {s t : State α} {e : Event} (h : step cb s e = some t) :
    s.created ≤ t.created := by
  cases e with
  | startAccept =>
    obtain ⟨_, id, mgr, _, rfl⟩ := step_startAccept h
    exact Nat.le_succ _
  | acceptDone =>
    obtain ⟨conn, _, rfl⟩ := step_acceptDone h
    exact Nat.le_refl _
  | acceptFail =>
    obtain ⟨conn, _, rfl⟩ := step_acceptFail h
    exact Nat.le_refl _
  | disconnect conn =>
    obtain ⟨_, rfl⟩ := step_disconnect h
    exact Nat.le_refl _

theorem known_or_new_of_step {s t : State α} {e : Event} (h : step cb s e = some t)
    (conn : Connection) (hconn : t.waiting = some conn ∨ conn ∈ t.accepted) :
    (s.waiting = some conn ∨ conn ∈ s.accepted) ∨
      conn.serial = s.created ∧ s.created < t.created ∧
        ∃ mgr, s.connIdMgr.getId UInt32.size = some (conn.connId, mgr) := by
  cases e with
  | startAccept =>
    obtain ⟨_, id, mgr, hget, rfl⟩ := step_startAccept h
    rcases hconn with hwait | hacc
    · cases hwait
      exact Or.inr ⟨rfl, Nat.lt_succ_self _, mgr, hget⟩
    · exact Or.inl (Or.inr hacc)
  | acceptDone =>
    obtain ⟨new, hwait, rfl⟩ := step_acceptDone h
    rcases hconn with hnone | hacc
    · cases hnone
    · rcases List.mem_append.mp hacc with hacc | hnew
      · exact Or.inl (Or.inr hacc)
      · rw [List.mem_singleton.mp hnew]
        exact Or.inl (Or.inl hwait)
  | acceptFail =>
    obtain ⟨_, _, rfl⟩ := step_acceptFail h
    rcases hconn with hnone | hacc
    · cases hnone
    · exact Or.inl (Or.inr hacc)
  | disconnect gone =>
    obtain ⟨_, rfl⟩ := step_disconnect h
    exact Or.inl hconn

/-- Connections are told apart by their numbers, the waiting one has not been
accepted, and only accepted ones disconnect. -/
structure Sound (s : State α) : Prop where
  serial : ∀ conn, s.waiting = some conn ∨ conn ∈ s.accepted → conn.serial < s.created
  unaccepted : ∀ conn, s.waiting = some conn → conn ∉ s.accepted
  down : ∀ conn ∈ s.down, conn ∈ s.accepted

theorem sound_fresh (app : α) : Sound (fresh app) where
  serial := by simp [fresh]
  unaccepted := by simp [fresh]
  down := by simp [fresh]

theorem Sound.keep {s t : State α} {e : Event} (hs : Sound s) (h : step cb s e = some t) :
    Sound t := by
  have hserial : ∀ conn, t.waiting = some conn ∨ conn ∈ t.accepted →
      conn.serial < t.created := by
    intro conn hconn
    rcases known_or_new_of_step h conn hconn with hknown | ⟨hnew, hlt, _⟩
    · exact Nat.lt_of_lt_of_le (hs.serial conn hknown) (created_le_step h)
    · rw [hnew]
      exact hlt
  cases e with
  | startAccept =>
    obtain ⟨_, id, mgr, _, rfl⟩ := step_startAccept h
    refine ⟨hserial, ?_, hs.down⟩
    intro conn hwait hacc
    cases hwait
    exact Nat.lt_irrefl _ (hs.serial _ (Or.inr hacc))
  | acceptDone =>
    obtain ⟨conn, _, rfl⟩ := step_acceptDone h
    exact ⟨hserial, by simp, fun other hdown => List.mem_append_left _ (hs.down other hdown)⟩
  | acceptFail =>
    obtain ⟨conn, _, rfl⟩ := step_acceptFail h
    exact ⟨hserial, by simp, hs.down⟩
  | disconnect conn =>
    obtain ⟨hmem, rfl⟩ := step_disconnect h
    refine ⟨hserial, hs.unaccepted, ?_⟩
    intro other hdown
    rcases List.mem_append.mp hdown with hdown | hnew
    · exact hs.down other hdown
    · rw [List.mem_singleton.mp hnew]
      exact hmem

end BlackCat.TcpServer
