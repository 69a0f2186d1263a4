import Mathlib.Data.Nat.Notation
import Mathlib.Logic.Function.Basic

/-!
`ConnMgr`, the proxy's registry of logged-in connections. It keeps two maps
that are meant to be inverse to each other: from a connection's id to the name
it logged in under, and from a name to its connection. `Add` overwrites both
without looking for the entries they replace, and `Del` follows one link only.
-/
namespace BlackCat.ConnMgr

variable {C : Type*}

/-- The maps `name_map_` and `conn_map_`. -/
structure Registry (C : Type*) where
  nameMap : UInt32 → Option String
  connMap : String → Option C

def empty : Registry C := ⟨fun _ => none, fun _ => none⟩

variable (getId : C → UInt32)

def add (mgr : Registry C) (name : String) (ptr : C) : Registry C where
  connMap := Function.update mgr.connMap name (some ptr)
  nameMap := Function.update mgr.nameMap (getId ptr) (some name)

/-- The empty string stands for a connection that is not found. -/
def getName (mgr : Registry C) (ptr : C) : String :=
  match mgr.nameMap (getId ptr) with
  | none => ""
  | some name => name

def getConn (mgr : Registry C) (name : String) : Option C := mgr.connMap name

def del (mgr : Registry C) (ptr : C) : Registry C :=
  let name := getName getId mgr ptr
  if name ≠ "" then {
    nameMap := Function.update mgr.nameMap (getId ptr) none
    connMap := Function.update mgr.connMap name none
  }
  else mgr

theorem getConn_add (mgr : Registry C) (name n : String) (ptr : C) :
    getConn (add getId mgr name ptr) n = if n = name then some ptr else getConn mgr n := by
  simp only [getConn, add, Function.update_apply]

theorem getConn_del (mgr : Registry C) (ptr : C) (n : String) :
    getConn (del getId mgr ptr) n =
      if getName getId mgr ptr ≠ "" ∧ n = getName getId mgr ptr then none
      else getConn mgr n := by
  by_cases hname : getName getId mgr ptr = ""
  · simp [del, getConn, hname]
  · simp [del, getConn, hname, Function.update_apply]

/-- The only entry of a connection is the one under its last name. -/
def Direct (mgr : Registry C) (c : C) : Prop :=
  ∀ n, getConn mgr n = some c → n ≠ "" ∧ getName getId mgr c = n

/-- Deleting a connection removes every route to it exactly when it has none but
the one under its last name. -/
theorem getConn_del_ne_iff (mgr : Registry C) (c : C) :
    (∀ n, getConn (del getId mgr c) n ≠ some c) ↔ Direct getId mgr c := by
  constructor
  · intro h n hn
    by_contra hnot
    apply h n
    rw [getConn_del, if_neg, hn]
    rintro ⟨hempty, hname⟩
    exact hnot ⟨hname ▸ hempty, hname.symm⟩
  · intro h n hn
    rw [getConn_del] at hn
    by_cases hlast : getName getId mgr c ≠ "" ∧ n = getName getId mgr c
    · rw [if_pos hlast] at hn
      cases hn
    · rw [if_neg hlast] at hn
      obtain ⟨hempty, hname⟩ := h n hn
      exact hlast ⟨hname ▸ hempty, hname.symm⟩

theorem getName_add_self (mgr : Registry C) (name : String) (ptr : C) :
    getName getId (add getId mgr name ptr) ptr = name := by
  simp [getName, add]

theorem getName_del_self (mgr : Registry C) (ptr : C) :
    getName getId (del getId mgr ptr) ptr = "" := by
  by_cases hname : getName getId mgr ptr = ""
  · simp [del, hname]
  · simp only [del, ne_eq, hname, not_false_eq_true, if_true]
    simp [getName]

variable {getId} (hid : Function.Injective getId)

include hid

theorem getName_add_of_ne (mgr : Registry C) (name : String) (ptr c : C) (hc : c ≠ ptr) :
    getName getId (add getId mgr name ptr) c = getName getId mgr c := by
  have hne : getId c ≠ getId ptr := fun h => hc (hid h)
  simp [getName, add, hne]

theorem getName_del_of_ne (mgr : Registry C) (ptr c : C) (hc : c ≠ ptr) :
    getName getId (del getId mgr ptr) c = getName getId mgr c := by
  have hne : getId c ≠ getId ptr := fun h => hc (hid h)
  by_cases hname : getName getId mgr ptr = ""
  · simp [del, hname]
  · simp only [del, ne_eq, hname, not_false_eq_true, if_true]
    simp [getName, hne]

theorem direct_add (mgr : Registry C) (name : String) (ptr : C) (hempty : name ≠ "")
    (hone : ∀ n, getConn mgr n = some ptr → n = name) (h : ∀ c, Direct getId mgr c) (c : C) :
    Direct getId (add getId mgr name ptr) c := by
  intro n hn
  rw [getConn_add] at hn
  by_cases hname : n = name
  · rw [if_pos hname] at hn
    cases hn
    exact ⟨hname ▸ hempty, by rw [getName_add_self, hname]⟩
  · rw [if_neg hname] at hn
    have hc : c ≠ ptr := by
      rintro rfl
      exact hname (hone n hn)
    rw [getName_add_of_ne hid mgr name ptr c hc]
    exact h c n hn

theorem direct_del (mgr : Registry C) (ptr : C) (h : ∀ c, Direct getId mgr c) (c : C) :
    Direct getId (del getId mgr ptr) c := by
  intro n hn
  by_cases hc : c = ptr
  · subst c
    exact absurd hn ((getConn_del_ne_iff getId mgr ptr).mpr (h ptr) n)
  · rw [getName_del_of_ne hid mgr ptr c hc]
    apply h c n
    rw [getConn_del] at hn
    by_cases hlast : getName getId mgr ptr ≠ "" ∧ n = getName getId mgr ptr
    · rw [if_pos hlast] at hn
      cases hn
    · rwa [if_neg hlast] at hn

end BlackCat.ConnMgr
