import BlackCat.RpcProxyServer

/-!
What a disconnect does to the registrations of others. `Del` removes the entry
under the connection's last name without asking whose it is, so it unregisters
whoever took that name over in the meantime. Nobody else is affected exactly when
nobody else is found under that name, which is so in every run in which a name
that leads to a connection is not logged in from another one.
-/
namespace BlackCat.RpcProxyServer

open RpcMessages ConnMgr

variable {C : Type*} (getId : C → UInt32)

/-- Deleting the connection changes nothing about the others. -/
structure Undisturbed (mgr : Registry C) (c : C) : Prop where
  conns : ∀ n, getConn mgr n ≠ some c → getConn (del getId mgr c) n = getConn mgr n
  names : ∀ other, other ≠ c → getName getId (del getId mgr c) other = getName getId mgr other

/-- Under its last name the connection is found, or nobody. -/
def SoleHolder (mgr : Registry C) (c : C) : Prop :=
  getName getId mgr c ≠ "" →
    ∀ other, getConn mgr (getName getId mgr c) = some other → other = c

theorem undisturbed_iff_soleHolder (hid : Function.Injective getId) (mgr : Registry C) (c : C) :
    Undisturbed getId mgr c ↔ SoleHolder getId mgr c := by
  constructor
  · intro h hname other hother
    by_contra hne
    have hconn : getConn mgr (getName getId mgr c) ≠ some c := by
      rw [hother]
      exact fun heq => hne (Option.some.inj heq)
    have hkept := h.conns _ hconn
    rw [getConn_del, if_pos ⟨hname, rfl⟩, hother] at hkept
    cases hkept
  · intro h
    refine ⟨?_, fun other hne => getName_del_of_ne hid mgr c other hne⟩
    intro n hn
    rw [getConn_del]
    by_cases hlast : getName getId mgr c ≠ "" ∧ n = getName getId mgr c
    · obtain ⟨hname, rfl⟩ := hlast
      rw [if_pos ⟨hname, rfl⟩]
      cases hconn : getConn mgr (getName getId mgr c) with
      | none => rfl
      | some other =>
        rw [h hname other hconn] at hconn
        exact absurd hconn hn
    · rw [if_neg hlast]

/-- Every login is under a name that leads to no other connection. -/
def Exclusive : Registry C → List (Event C) → Prop
  | _, [] => True
  | mgr, .packet conn (.login request) :: events =>
    (∀ other, getConn mgr request.serviceName = some other → other = conn) ∧
    Exclusive (handleLoginRequest getId mgr conn request) events
  | mgr, event :: events => Exclusive (handle getId mgr event) events

/-- Every connection with a name is found under it. -/
def Named (mgr : Registry C) : Prop :=
  ∀ c, getName getId mgr c ≠ "" → getConn mgr (getName getId mgr c) = some c

variable {getId} (hid : Function.Injective getId)

include hid

theorem Named.login {mgr : Registry C} (h : Named getId mgr) (conn : C) (name : String)
    (hfree : ∀ other, getConn mgr name = some other → other = conn) :
    Named getId (add getId mgr name conn) := by
  intro c hname
  rw [getConn_add]
  by_cases hc : c = conn
  · subst c
    rw [getName_add_self, if_pos rfl]
  · rw [getName_add_of_ne hid mgr name conn c hc] at hname ⊢
    have hold := h c hname
    rw [if_neg, hold]
    intro hsame
    rw [hsame] at hold
    exact hc (hfree c hold)

theorem Named.del {mgr : Registry C} (h : Named getId mgr) (conn : C) :
    Named getId (del getId mgr conn) := by
  intro c hname
  by_cases hc : c = conn
  · rw [hc, getName_del_self] at hname
    exact absurd rfl hname
  · rw [getName_del_of_ne hid mgr conn c hc] at hname ⊢
    have hold := h c hname
    rw [getConn_del, if_neg, hold]
    rintro ⟨hlast, hsame⟩
    have hconn := h conn hlast
    rw [← hsame, hold] at hconn
    exact hc (Option.some.inj hconn)

theorem named_of_exclusive (mgr : Registry C) (events : List (Event C))
    (hexclusive : Exclusive getId mgr events) (h : Named getId mgr) :
    Named getId (run getId mgr events) := by
  induction events generalizing mgr with
  | nil => exact h
  | cons event events ih =>
    cases event with
    | packet conn packet =>
      cases packet with
      | login request => exact ih _ hexclusive.2 (h.login hid conn _ hexclusive.1)
      | request request => exact ih mgr hexclusive h
      | response response => exact ih mgr hexclusive h
    | disconnect conn => exact ih _ hexclusive (h.del hid conn)

/-- In every state of the registry a disconnect leaves the others alone exactly when
nobody else is found under the connection's last name, and it always does so where
no name is taken over. -/
theorem disconnect_undisturbed_iff (events : List (Event C)) (c : C) :
    (Undisturbed getId (run getId empty events) c ↔
        SoleHolder getId (run getId empty events) c) ∧
      (Exclusive getId empty events → Undisturbed getId (run getId empty events) c) := by
  have hiff := undisturbed_iff_soleHolder getId hid (run getId empty events) c
  refine ⟨hiff, ?_⟩
  intro hexclusive
  have hempty : Named getId (empty : Registry C) := by
    intro other hname
    exact absurd rfl hname
  have hnamed := named_of_exclusive hid empty events hexclusive hempty
  apply hiff.mpr
  intro hname other hother
  rw [hnamed c hname] at hother
  exact (Option.some.inj hother).symm

omit hid

/-- Two connections under two names. -/
theorem disconnect_undisturbed_two_names :
    Undisturbed id (run id empty [.packet 1 (.login ⟨"a", "test key"⟩),
      .packet (2 : UInt32) (.login ⟨"b", "test key"⟩)]) 1 := by
  apply (disconnect_undisturbed_iff Function.injective_id _ 1).2
  refine ⟨?_, ?_, trivial⟩
  · intro other hother
    cases hother
  · intro other hother
    cases hother

/-- A connection logs in under the name of an older one, which then goes down. -/
theorem disconnect_unregisters_successor :
    getConn (run id empty [.packet 1 (.login ⟨"a", "test key"⟩),
        .packet 2 (.login ⟨"a", "test key"⟩)]) "a" = some (2 : UInt32) ∧
      getConn (run id empty [.packet 1 (.login ⟨"a", "test key"⟩),
        .packet 2 (.login ⟨"a", "test key"⟩), .disconnect 1]) "a" = (none : Option UInt32) ∧
      ¬ Undisturbed id (run id empty [.packet 1 (.login ⟨"a", "test key"⟩),
        .packet (2 : UInt32) (.login ⟨"a", "test key"⟩)]) 1 := by
  refine ⟨by decide, by decide, ?_⟩
  intro h
  have hkept := h.conns "a" (by decide)
  exact absurd hkept (by decide)

end BlackCat.RpcProxyServer
