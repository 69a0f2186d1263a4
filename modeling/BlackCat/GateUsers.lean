import BlackCat.TcpServer
import Mathlib.Logic.Function.Basic

/-!
The gateway's user table. `Gateway::OnAccept` files a `GateUser` under the id of
the new connection and `Gateway::OnDisconnect` removes whatever is filed there,
also when a connection disconnects again. Until ids repeat a connection's id is
its number, so the entry a disconnect removes is never that of another one.
-/
namespace BlackCat.Gateway

open TcpServer Runs

/-- What is read of a `GateUser`: its connection. -/
structure GateUser where
  conn : Connection
  deriving DecidableEq, Repr

def GateUser.getConn (user : GateUser) : Connection := user.conn

/-- `game_users_`. -/
structure GateUserManager where
  gameUsers : UInt32 → Option GateUser

namespace GateUserManager

def empty : GateUserManager := ⟨fun _ => none⟩

def addUser (mgr : GateUserManager) (conn : Connection) : GateUserManager where
  gameUsers := Function.update mgr.gameUsers conn.connId (some ⟨conn⟩)

def removeUser (mgr : GateUserManager) (connId : UInt32) : GateUserManager where
  gameUsers := Function.update mgr.gameUsers connId none

def getUser (mgr : GateUserManager) (connId : UInt32) : Option GateUser := mgr.gameUsers connId

theorem getUser_addUser (mgr : GateUserManager) (conn : Connection) (id : UInt32) :
    (mgr.addUser conn).getUser id = if id = conn.connId then some ⟨conn⟩ else mgr.getUser id := by
  simp only [getUser, addUser, Function.update_apply]

theorem getUser_removeUser (mgr : GateUserManager) (connId id : UInt32) :
    (mgr.removeUser connId).getUser id = if id = connId then none else mgr.getUser id := by
  simp only [getUser, removeUser, Function.update_apply]

end GateUserManager

def onAccept (users : GateUserManager) (conn : Connection) : GateUserManager :=
  users.addUser conn

def onDisconnect (users : GateUserManager) (conn : Connection) : GateUserManager :=
  users.removeUser conn.connId

def callBacks : CallBacks GateUserManager := ⟨onAccept, onDisconnect⟩

/-- Ids have been given out in order, so that a connection's id is its number. -/
structure Numbered {α : Type*} (s : State α) : Prop where
  next : s.connIdMgr.id = UInt32.ofNat s.created
  used : ∀ id ∈ s.connIdMgr.idSet, id.toNat < s.created
  connId : ∀ conn, s.waiting = some conn ∨ conn ∈ s.accepted → conn.connId.toNat = conn.serial

theorem numbered_fresh {α : Type*} (app : α) : Numbered (fresh app) where
  next := rfl
  used := by simp [fresh]
  connId := by simp [fresh]

theorem Numbered.eq_of_connId {α : Type*} {s : State α} (h : Numbered s) {a b : Connection}
    (ha : a ∈ s.accepted) (hb : b ∈ s.accepted) (hid : a.connId = b.connId) : a = b := by
  have hserial := (h.connId a (Or.inr ha)).symm.trans
    ((congrArg UInt32.toNat hid).trans (h.connId b (Or.inr hb)))
  cases a
  cases b
  simp only at hserial hid
  rw [hserial, hid]

theorem Numbered.getId {α : Type*} {s : State α} (h : Numbered s)
    (hids : s.created < 4294967296) :
    s.connIdMgr.getId UInt32.size =
      some (UInt32.ofNat s.created,
        ⟨UInt32.ofNat (s.created + 1), insert (UInt32.ofNat s.created) s.connIdMgr.idSet⟩) := by
  have hfree : s.connIdMgr.id ∉ s.connIdMgr.idSet := by
    intro hmem
    have hlt := h.used _ hmem
    rw [h.next, UInt32.toNat_ofNat_of_lt' hids] at hlt
    exact Nat.lt_irrefl _ hlt
  rw [show UInt32.size = 4294967295 + 1 from rfl, IndexMgr.getId_of_notMem hfree, h.next,
    UInt32.ofNat_add]
  rfl

theorem Numbered.keep {α : Type*} {cb : CallBacks α} {s t : State α} {e : Event}
    (hs : Numbered s) (hids : s.created < 4294967296) (h : step cb s e = some t) :
    Numbered t := by
  have hnat : (UInt32.ofNat s.created).toNat = s.created := UInt32.toNat_ofNat_of_lt' hids
  have hconnId : ∀ conn, t.waiting = some conn ∨ conn ∈ t.accepted →
      conn.connId.toNat = conn.serial := by
    intro conn hconn
    rcases known_or_new_of_step h conn hconn with hknown | ⟨hserial, _, mgr, hget⟩
    · exact hs.connId conn hknown
    · rw [hs.getId hids] at hget
      rw [hserial, ← (Prod.mk.inj (Option.some.inj hget)).1, hnat]
  cases e with
  | startAccept =>
    obtain ⟨_, id, mgr, hget, rfl⟩ := step_startAccept h
    rw [hs.getId hids] at hget
    cases hget
    refine ⟨rfl, ?_, hconnId⟩
    intro id hmem
    rcases Finset.mem_insert.mp hmem with rfl | hold
    · rw [hnat]
      exact Nat.lt_succ_self _
    · exact Nat.lt_succ_of_lt (hs.used id hold)
  | acceptDone =>
    obtain ⟨conn, _, rfl⟩ := step_acceptDone h
    exact ⟨hs.next, hs.used, hconnId⟩
  | acceptFail =>
    obtain ⟨conn, _, rfl⟩ := step_acceptFail h
    exact ⟨hs.next, hs.used, hconnId⟩
  | disconnect conn =>
    obtain ⟨_, rfl⟩ := step_disconnect h
    refine ⟨hs.next, ?_, hconnId⟩
    intro id hmem
    exact hs.used id (Finset.mem_of_mem_erase hmem)

/-- A user is filed under an id exactly for the connection with this id that is
accepted and has not disconnected. -/
def Mirrors (s : State GateUserManager) : Prop :=
  ∀ id user, s.app.getUser id = some user ↔
    ∃ conn ∈ s.accepted, conn ∉ s.down ∧ conn.connId = id ∧ user.getConn = conn

theorem mirrors_acceptDone {s : State GateUserManager} {conn : Connection} (hs : Mirrors s)
    (hsound : Sound s) (hwait : s.waiting = some conn)
    (hnew : ∀ other ∈ s.accepted, other.connId ≠ conn.connId) :
    Mirrors { s with
      waiting := none, accepted := s.accepted ++ [conn], app := onAccept s.app conn } := by
  have hup : conn ∉ s.down := fun hdown => hsound.unaccepted conn hwait (hsound.down conn hdown)
  intro id user
  simp only [onAccept, GateUserManager.getUser_addUser, List.mem_append, List.mem_singleton]
  by_cases hid : id = conn.connId
  · rw [if_pos hid, Option.some.injEq]
    constructor
    · rintro rfl
      exact ⟨conn, Or.inr rfl, hup, hid.symm, rfl⟩
    · rintro ⟨other, hacc | rfl, _, hother, huser⟩
      · exact absurd (hother.trans hid) (hnew other hacc)
      · rw [← huser]
        rfl
  · rw [if_neg hid, hs id user]
    constructor
    · rintro ⟨other, hacc, hrest⟩
      exact ⟨other, Or.inl hacc, hrest⟩
    · rintro ⟨other, hacc | rfl, hdown, hother, huser⟩
      · exact ⟨other, hacc, hdown, hother, huser⟩
      · exact absurd hother.symm hid

theorem mirrors_disconnect {s : State GateUserManager} {conn : Connection} (hs : Mirrors s)
    (hsame : ∀ other ∈ s.accepted, other.connId = conn.connId → other = conn) :
    Mirrors (TcpServer.onDisconnect callBacks s conn) := by
  intro id user
  simp only [TcpServer.onDisconnect, callBacks, onDisconnect,
    GateUserManager.getUser_removeUser, List.mem_append, List.mem_singleton, not_or]
  by_cases hid : id = conn.connId
  · rw [if_pos hid]
    constructor
    · intro hnone
      cases hnone
    · rintro ⟨other, hacc, ⟨_, hne⟩, hother, _⟩
      exact absurd (hsame other hacc (hother.trans hid)) hne
  · rw [if_neg hid, hs id user]
    constructor
    · rintro ⟨other, hacc, hup, hother, huser⟩
      exact ⟨other, hacc, ⟨hup, fun heq => hid (heq ▸ hother.symm)⟩, hother, huser⟩
    · rintro ⟨other, hacc, ⟨hup, _⟩, hother, huser⟩
      exact ⟨other, hacc, hup, hother, huser⟩

/-- The joint invariant of the id allocator, the connections and the user table. -/
structure Consistent (s : State GateUserManager) : Prop where
  sound : Sound s
  numbered : Numbered s
  mirrors : Mirrors s

theorem consistent_fresh : Consistent (fresh .empty) where
  sound := sound_fresh _
  numbered := numbered_fresh _
  mirrors := by
    intro id user
    simp [fresh, GateUserManager.empty, GateUserManager.getUser]

theorem Consistent.keep {s t : State GateUserManager} {e : Event} (hs : Consistent s)
    (hids : s.created < 4294967296) (h : step callBacks s e = some t) : Consistent t := by
  have hnumbered := hs.numbered.keep hids h
  refine ⟨hs.sound.keep h, hnumbered, ?_⟩
  cases e with
  | startAccept =>
    obtain ⟨_, id, mgr, _, rfl⟩ := step_startAccept h
    exact hs.mirrors
  | acceptDone =>
    obtain ⟨conn, hwait, rfl⟩ := step_acceptDone h
    refine mirrors_acceptDone hs.mirrors hs.sound hwait ?_
    intro other hacc hid
    have heq := hnumbered.eq_of_connId (List.mem_append_left _ hacc)
      (List.mem_append_right _ (List.mem_singleton_self conn)) hid
    exact hs.sound.unaccepted conn hwait (heq ▸ hacc)
  | acceptFail =>
    obtain ⟨conn, _, rfl⟩ := step_acceptFail h
    exact hs.mirrors
  | disconnect conn =>
    obtain ⟨hmem, rfl⟩ := step_disconnect h
    refine mirrors_disconnect hs.mirrors ?_
    intro other hacc hid
    exact hs.numbered.eq_of_connId hacc hmem hid

/-- The user table mirrors the live connections in every run that has taken fewer
than 2^32 ids, and a disconnect leaves every other connection's user. -/
theorem users_mirror_connections (events : List Event) (s : State GateUserManager)
    (hrun : run (step callBacks) (fresh .empty) events = some s)
    (hids : s.created < 4294967296) :
    Mirrors s ∧ ∀ conn other t, other ∈ s.accepted → other ≠ conn →
      step callBacks s (.disconnect conn) = some t →
        t.app.getUser other.connId = s.app.getUser other.connId := by
  have hkeep : ∀ u e v, (u.created < 4294967296 → Consistent u) →
      step callBacks u e = some v → v.created < 4294967296 → Consistent v := by
    intro u e v hu hstep hv
    have hle := created_le_step hstep
    exact (hu (by omega)).keep (by omega) hstep
  have hs := invariant_of_step hkeep (fun _ => consistent_fresh) hrun hids
  refine ⟨hs.mirrors, ?_⟩
  intro conn other t hacc hne hstep
  obtain ⟨hmem, rfl⟩ := step_disconnect hstep
  have hid : other.connId ≠ conn.connId :=
    fun heq => hne (hs.numbered.eq_of_connId hacc hmem heq)
  exact (GateUserManager.getUser_removeUser ..).trans (if_neg hid)

/-- Two connections are accepted and the first disconnects twice. -/
theorem users_mirror_connections_repeated_disconnect :
    ∃ s, run (step callBacks) (fresh .empty) [.startAccept, .acceptDone, .startAccept,
        .acceptDone, .disconnect ⟨0, 0⟩, .disconnect ⟨0, 0⟩] = some s ∧
      s.app.getUser 1 = some ⟨⟨1, 1⟩⟩ := by
  refine ⟨_, rfl, ?_⟩
  have h := users_mirror_connections [.startAccept, .acceptDone, .startAccept,
    .acceptDone, .disconnect ⟨0, 0⟩, .disconnect ⟨0, 0⟩] _ rfl (by decide)
  exact (h.1 1 ⟨⟨1, 1⟩⟩).mpr ⟨⟨1, 1⟩, by decide, by decide, rfl, rfl⟩

end BlackCat.Gateway
