import BlackCat.TcpServer
import Mathlib.Data.Finset.Card

/-!
The ids of an `IndexMgr<uint32>` over whole sequences of `GetId` and `PutId`. The
cursor `id_` wraps around and then meets ids that are still held; the probing
loop skips them. As long as one of the 2^32 ids is free the loop finds the first
free one from the cursor on, because going round from any id reaches every other.
-/
namespace BlackCat.IdAllocation

open Loops TcpServer
open TcpServer.IndexMgr (getIdRound getId_spec run_getIdRound exists_first_free)

/-- An `IndexMgr` with the ids that `GetId` has returned and `PutId` has not been
given since, in the order in which they were returned. -/
structure State where
  mgr : IndexMgr UInt32
  held : List UInt32

inductive Event
  | getId
  | putId (id : UInt32)
  deriving DecidableEq, Repr

def start : State := ⟨⟨0, ∅⟩, []⟩

/-- `PutId` may be given any id. There is no next state if `GetId` does not return. -/
def step (s : State) : Event → Option State
  | .getId => (s.mgr.getId UInt32.size).map fun (id, mgr) => ⟨mgr, s.held ++ [id]⟩
  | .putId id => some ⟨s.mgr.putId id, s.held.filter (· ≠ id)⟩

theorem exists_notMem_of_card_lt (idSet : Finset UInt32) (h : idSet.card < 4294967296) :
    ∃ id, id ∉ idSet := by
  by_contra hall
  push Not at hall
  have hinj : Set.InjOn UInt32.ofNat (Finset.range 4294967296 : Finset ℕ) := by
    intro a ha b hb hab
    rw [Finset.coe_range, Set.mem_Iio] at ha hb
    rw [← UInt32.toNat_ofNat_of_lt' ha, ← UInt32.toNat_ofNat_of_lt' hb, hab]
  have hle := Finset.card_le_card_of_injOn UInt32.ofNat (fun n _ => hall (UInt32.ofNat n)) hinj
  rw [Finset.card_range] at hle
  omega

theorem step_getId {s t : State} (h : step s .getId = some t) :
    ∃ id, id ∉ s.mgr.idSet ∧ t = ⟨⟨id + 1, insert id s.mgr.idSet⟩, s.held ++ [id]⟩ := by
  obtain ⟨⟨id, mgr⟩, hget, ht⟩ := Option.map_eq_some_iff.mp h
  obtain ⟨hfree, rfl⟩ := getId_spec hget
  exact ⟨id, hfree, ht.symm⟩

/-- The ids returned and not put back are those in `id_set_`, each of them once. -/
structure Recorded (s : State) : Prop where
  held_iff : ∀ id, id ∈ s.held ↔ id ∈ s.mgr.idSet
  distinct : s.held.Nodup

theorem recorded_start : Recorded start where
  held_iff := by simp [start]
  distinct := List.nodup_nil

theorem Recorded.keep {s t : State} {e : Event} (hs : Recorded s) (h : step s e = some t) :
    Recorded t := by
  cases e with
  | getId =>
    obtain ⟨id, hfree, rfl⟩ := step_getId h
    refine ⟨?_, ?_⟩
    · intro other
      rw [List.mem_append, List.mem_singleton, Finset.mem_insert, hs.held_iff, or_comm]
    · apply List.Nodup.append hs.distinct (List.nodup_singleton id)
      rw [List.disjoint_singleton]
      exact fun hheld => hfree ((hs.held_iff id).mp hheld)
  | putId id =>
    cases h
    refine ⟨?_, hs.distinct.filter _⟩
    intro other
    simp only [List.mem_filter, decide_eq_true_eq, IndexMgr.putId, Finset.mem_erase, hs.held_iff]
    exact and_comm

/-- What `GetId` and `PutId` do in a state, with the ids held in it. -/
structure Allocates (s : State) : Prop where
  held_iff : ∀ id, id ∈ s.held ↔ id ∈ s.mgr.idSet
  distinct : s.held.Nodup
  getId_free : ∀ t, step s .getId = some t → ∃ id, id ∉ s.mgr.idSet ∧
    t.mgr.idSet = insert id s.mgr.idSet ∧ t.held = s.held ++ [id]
  putId_exact : ∀ id t, step s (.putId id) = some t →
    t.mgr.idSet = s.mgr.idSet.erase id ∧ (id ∉ s.mgr.idSet → t.mgr = s.mgr)
  probe : s.mgr.idSet.card < 4294967296 → ∃ k,
    (∀ j < k, s.mgr.id + UInt32.ofNat j ∈ s.mgr.idSet) ∧
    Loops.run (getIdRound s.mgr.idSet) (k + 1) s.mgr.id = some (s.mgr.id + UInt32.ofNat k) ∧
    ∃ t, step s .getId = some t ∧ t.held = s.held ++ [s.mgr.id + UInt32.ofNat k]

theorem Recorded.allocates {s : State} (h : Recorded s) : Allocates s where
  held_iff := h.held_iff
  distinct := h.distinct
  getId_free := by
    intro t ht
    obtain ⟨id, hfree, rfl⟩ := step_getId ht
    exact ⟨id, hfree, rfl, rfl⟩
  putId_exact := by
    intro id t ht
    cases ht
    refine ⟨rfl, ?_⟩
    intro hfree
    rw [IndexMgr.putId, Finset.erase_eq_of_notMem hfree]
  probe := by
    intro hcard
    obtain ⟨free, hfree⟩ := exists_notMem_of_card_lt s.mgr.idSet hcard
    obtain ⟨k, hk, hheld, hnext⟩ := exists_first_free s.mgr.idSet s.mgr.id hfree
    have hrun := run_getIdRound s.mgr.idSet k s.mgr.id hheld hnext
    refine ⟨k, hheld, hrun, ?_⟩
    have hmore := run_mono _ hk hrun
    refine ⟨⟨⟨s.mgr.id + UInt32.ofNat k + 1, insert (s.mgr.id + UInt32.ofNat k) s.mgr.idSet⟩,
      s.held ++ [s.mgr.id + UInt32.ofNat k]⟩, ?_, rfl⟩
    simp only [step, IndexMgr.getId, hmore, Option.map_some]

/-- Allocation is free of collisions after any sequence of `GetId` and `PutId`, and
`GetId` returns wherever an id is left. -/
theorem ids_allocated (events : List Event) (s : State)
    (hrun : Runs.run step start events = some s) : Allocates s := by
  have hkeep : ∀ u e v, Recorded u → step u e = some v → Recorded v :=
    fun _ _ _ hu hstep => hu.keep hstep
  exact (Runs.invariant_of_step hkeep recorded_start hrun).allocates

/-- Two ids are taken, the first is put back twice, and one is put back that nobody
holds. -/
theorem ids_allocated_after_repeated_putId :
    Allocates ⟨⟨2, {1}⟩, [1]⟩ :=
  ids_allocated [.getId, .getId, .putId 0, .putId 0, .putId 7] ⟨⟨2, {1}⟩, [1]⟩ (by rfl)

end BlackCat.IdAllocation
