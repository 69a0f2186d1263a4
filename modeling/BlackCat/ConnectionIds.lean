import BlackCat.Leases
import BlackCat.TcpServer

/-!
Accounting for connection ids. The id of a connection that was accepted comes
back when it first disconnects. A failed accept drops the connection object and
nobody gives its id back: as many ids are lost as accepts have failed.
-/
namespace BlackCat.TcpServer

open Leases Runs

variable {α : Type*} {cb : CallBacks α}

/-- The connection waits to be accepted, or is accepted and has not disconnected. -/
def Holder (s : State α) (conn : Connection) : Prop :=
  s.waiting = some conn ∨ conn ∈ s.accepted ∧ conn ∉ s.down

/-- The ids in use are exactly those of the connections that hold one. -/
def Accounted (s : State α) : Prop :=
  ∀ id, id ∈ s.connIdMgr.idSet ↔ ∃ conn, Holder s conn ∧ conn.connId = id

/-- No connection disconnects a second time. -/
def FirstDisconnect (s : State α) (e : Event) : Prop :=
  ∀ conn, e = .disconnect conn → conn ∉ s.down

abbrev IdBooks (s : State α) (lost : Finset UInt32) : Prop :=
  Books (Holder s) Connection.connId s.connIdMgr.idSet lost

theorem idBooks_step {s t : State α} {e : Event} {lost : Finset UInt32} (hs : Sound s)
    (hbooks : IdBooks s lost) (hfirst : FirstDisconnect s e) (h : step cb s e = some t) :
    ∃ lost', IdBooks t lost' ∧ lost'.card = lost.card + [e].count .acceptFail := by
  cases e with
  | startAccept =>
    obtain ⟨hnone, id, mgr, hget, rfl⟩ := step_startAccept h
    obtain ⟨hfree, rfl⟩ := IndexMgr.getId_spec hget
    refine ⟨lost, hbooks.take ⟨s.created, id⟩ hfree ?_, rfl⟩
    intro conn
    simp only [Holder, hnone, reduceCtorEq, false_or, Option.some.injEq]
    rw [or_comm, eq_comm]
  | acceptDone =>
    obtain ⟨conn, hwait, rfl⟩ := step_acceptDone h
    refine ⟨lost, hbooks.keep ?_, rfl⟩
    intro other
    have hdown : conn ∉ s.down := fun hd => hs.unaccepted conn hwait (hs.down conn hd)
    simp only [Holder, hwait, reduceCtorEq, false_or, List.mem_append, List.mem_singleton,
      Option.some.injEq]
    constructor
    · rintro ⟨hacc | rfl, hup⟩
      · exact Or.inr ⟨hacc, hup⟩
      · exact Or.inl rfl
    · rintro (rfl | ⟨hacc, hup⟩)
      · exact ⟨Or.inr rfl, hdown⟩
      · exact ⟨Or.inl hacc, hup⟩
  | acceptFail =>
    obtain ⟨conn, hwait, rfl⟩ := step_acceptFail h
    have hholder : Holder s conn := Or.inl hwait
    refine ⟨insert conn.connId lost, hbooks.lose conn hholder ?_, ?_⟩
    · intro other
      have hnew : other ∈ s.accepted → other ≠ conn := by
        rintro hacc rfl
        exact hs.unaccepted other hwait hacc
      simp only [Holder, hwait, reduceCtorEq, false_or, Option.some.injEq]
      constructor
      · intro hacc
        exact ⟨Or.inr hacc, hnew hacc.1⟩
      · rintro ⟨rfl | hacc, hne⟩
        · exact absurd rfl hne
        · exact hacc
    · rw [Finset.card_insert_of_notMem (hbooks.apart conn hholder)]
      rfl
  | disconnect conn =>
    obtain ⟨hacc, rfl⟩ := step_disconnect h
    have hup := hfirst conn rfl
    refine ⟨lost, hbooks.release conn (Or.inr ⟨hacc, hup⟩) ?_, rfl⟩
    intro other
    have hwait : s.waiting = some other → other ≠ conn := by
      rintro hwait rfl
      exact hs.unaccepted other hwait hacc
    simp only [Holder, onDisconnect, List.mem_append, List.mem_singleton, not_or]
    constructor
    · rintro (hw | ⟨hacc, hup, hne⟩)
      · exact ⟨Or.inl hw, hwait hw⟩
      · exact ⟨Or.inr ⟨hacc, hup⟩, hne⟩
    · rintro ⟨hw | ⟨hacc, hup⟩, hne⟩
      · exact Or.inl hw
      · exact Or.inr ⟨hacc, hup, hne⟩

theorem idBooks_of_run {events : List Event} {s t : State α} {lost : Finset UInt32}
    (hs : Sound s) (hbooks : IdBooks s lost)
    (hfirst : Always (step cb) FirstDisconnect s events)
    (hrun : run (step cb) s events = some t) :
    ∃ lost', IdBooks t lost' ∧ lost'.card = lost.card + events.count .acceptFail := by
  induction events generalizing s lost with
  | nil =>
    cases hrun
    exact ⟨lost, hbooks, rfl⟩
  | cons e events ih =>
    obtain ⟨u, hstep, hrest⟩ := exists_of_run_cons hrun
    obtain ⟨lost₁, hbooks₁, hcard₁⟩ := idBooks_step hs hbooks hfirst.1 hstep
    obtain ⟨lost₂, hbooks₂, hcard₂⟩ := ih (hs.keep hstep) hbooks₁ (hfirst.2 u hstep) hrest
    refine ⟨lost₂, hbooks₂, ?_⟩
    rw [hcard₂, hcard₁, Nat.add_assoc, ← List.count_append]
    rfl

theorem idBooks_fresh (app : α) : IdBooks (fresh app) ∅ := by
  apply books_empty
  intro conn
  simp [Holder, fresh]

/-- The ids in use are accounted for exactly in the runs without a failed accept. -/
theorem ids_accounted_iff (cb : CallBacks α) (app : α) (events : List Event) (s : State α)
    (hrun : run (step cb) (fresh app) events = some s)
    (hfirst : Always (step cb) FirstDisconnect (fresh app) events) :
    Accounted s ↔ .acceptFail ∉ events := by
  obtain ⟨lost, hbooks, hcard⟩ :=
    idBooks_of_run (sound_fresh app) (idBooks_fresh app) hfirst hrun
  rw [Finset.card_empty, Nat.zero_add] at hcard
  rw [Accounted, ← hbooks.lost_eq_empty_iff, ← Finset.card_eq_zero, hcard, List.count_eq_zero]

/-- An owner that keeps nothing. -/
def idle : CallBacks Unit := ⟨fun app _ => app, fun app _ => app⟩

/-- A connection is accepted and disconnects while the next one waits. -/
theorem ids_accounted_after_disconnect :
    Accounted (⟨⟨2, {1}⟩, some ⟨1, 1⟩, 2, [⟨0, 0⟩], [⟨0, 0⟩], ()⟩ : State Unit) := by
  have hrun : run (step idle) (fresh ())
      [.startAccept, .acceptDone, .startAccept, .disconnect ⟨0, 0⟩] =
        some ⟨⟨2, {1}⟩, some ⟨1, 1⟩, 2, [⟨0, 0⟩], [⟨0, 0⟩], ()⟩ := by rfl
  refine (ids_accounted_iff idle () _ _ hrun ?_).mpr (by decide)
  refine Always.cons (Always.cons (Always.cons (Always.cons trivial rfl ?_) rfl ?_) rfl ?_) rfl ?_
  all_goals simp [FirstDisconnect, fresh]

/-- One failed accept leaves its id in use without a holder. -/
theorem id_lost_by_failed_accept :
    run (step idle) (fresh ()) [.startAccept, .acceptFail, .startAccept] =
        some ⟨⟨2, {1, 0}⟩, some ⟨1, 1⟩, 2, [], [], ()⟩ ∧
      ¬ Accounted (⟨⟨2, {1, 0}⟩, some ⟨1, 1⟩, 2, [], [], ()⟩ : State Unit) := by
  refine ⟨by rfl, ?_⟩
  intro h
  obtain ⟨conn, hholder, hid⟩ := (h 0).mp (by decide)
  rcases hholder with hwait | ⟨hacc, _⟩
  · cases hwait
    exact absurd hid (by decide)
  · exact absurd hacc List.not_mem_nil

end BlackCat.TcpServer
