import Mathlib.Data.Finset.Card

/-!
Identifiers on loan. Every identifier in use is lent to exactly one holder or has
been lost, that is, its holder went away without giving it back. Taking a free
identifier, giving one back and losing one keep such books; nothing is lost
exactly when the identifiers in use are those of the holders.
-/
namespace BlackCat.Leases

variable {γ ι : Type*}

/-- Which identifiers are in use, by the holders and lost ones. -/
structure Books (holder : γ → Prop) (idOf : γ → ι) (used lost : Finset ι) : Prop where
  distinct : ∀ a b, holder a → holder b → idOf a = idOf b → a = b
  apart : ∀ a, holder a → idOf a ∉ lost
  mem_used : ∀ id, id ∈ used ↔ (∃ a, holder a ∧ idOf a = id) ∨ id ∈ lost

variable {holder next : γ → Prop} {idOf : γ → ι} {used lost : Finset ι}

theorem books_empty (h : ∀ a, ¬ holder a) : Books holder idOf ∅ ∅ where
  distinct := fun a _ ha => absurd ha (h a)
  apart := fun a ha => absurd ha (h a)
  mem_used := fun id => by simp [h]

theorem Books.keep (h : Books holder idOf used lost) (hnext : ∀ a, next a ↔ holder a) :
    Books next idOf used lost := by
  have hsame : next = holder := funext fun a => propext (hnext a)
  rw [hsame]
  exact h

theorem Books.take [DecidableEq ι] (h : Books holder idOf used lost) (c : γ)
    (hfree : idOf c ∉ used) (hnext : ∀ a, next a ↔ holder a ∨ a = c) :
    Books next idOf (insert (idOf c) used) lost := by
  have hother : ∀ a, holder a → idOf a ≠ idOf c := by
    intro a ha heq
    exact hfree ((h.mem_used _).mpr (Or.inl ⟨a, ha, heq⟩))
  refine ⟨?_, ?_, ?_⟩
  · intro a b ha hb heq
    rcases (hnext a).mp ha with ha | rfl <;> rcases (hnext b).mp hb with hb | rfl
    · exact h.distinct a b ha hb heq
    · exact absurd heq (hother a ha)
    · exact absurd heq.symm (hother b hb)
    · rfl
  · intro a ha
    rcases (hnext a).mp ha with ha | rfl
    · exact h.apart a ha
    · intro hlost
      exact hfree ((h.mem_used _).mpr (Or.inr hlost))
  · intro id
    rw [Finset.mem_insert, h.mem_used]
    constructor
    · rintro (rfl | ⟨a, ha, rfl⟩ | hlost)
      · exact Or.inl ⟨c, (hnext c).mpr (Or.inr rfl), rfl⟩
      · exact Or.inl ⟨a, (hnext a).mpr (Or.inl ha), rfl⟩
      · exact Or.inr hlost
    · rintro (⟨a, ha, rfl⟩ | hlost)
      · rcases (hnext a).mp ha with ha | rfl
        · exact Or.inr (Or.inl ⟨a, ha, rfl⟩)
        · exact Or.inl rfl
      · exact Or.inr (Or.inr hlost)

theorem Books.mem_used_ne (h : Books holder idOf used lost) (c : γ) (hc : holder c)
    (hnext : ∀ a, next a ↔ holder a ∧ a ≠ c) (id : ι) :
    (∃ a, next a ∧ idOf a = id) ∨ id ∈ lost ↔ id ≠ idOf c ∧ id ∈ used := by
  rw [h.mem_used]
  constructor
  · rintro (⟨a, ha, rfl⟩ | hlost)
    · obtain ⟨ha, hne⟩ := (hnext a).mp ha
      exact ⟨fun heq => hne (h.distinct a c ha hc heq), Or.inl ⟨a, ha, rfl⟩⟩
    · exact ⟨fun heq => h.apart c hc (heq ▸ hlost), Or.inr hlost⟩
  · rintro ⟨hne, ⟨a, ha, rfl⟩ | hlost⟩
    · exact Or.inl ⟨a, (hnext a).mpr ⟨ha, fun heq => hne (heq ▸ rfl)⟩, rfl⟩
    · exact Or.inr hlost

theorem Books.release [DecidableEq ι] (h : Books holder idOf used lost) (c : γ) (hc : holder c)
    (hnext : ∀ a, next a ↔ holder a ∧ a ≠ c) :
    Books next idOf (used.erase (idOf c)) lost where
  distinct := fun a b ha hb => h.distinct a b ((hnext a).mp ha).1 ((hnext b).mp hb).1
  apart := fun a ha => h.apart a ((hnext a).mp ha).1
  mem_used := fun id => by rw [Finset.mem_erase, h.mem_used_ne c hc hnext]

theorem Books.lose [DecidableEq ι] (h : Books holder idOf used lost) (c : γ) (hc : holder c)
    (hnext : ∀ a, next a ↔ holder a ∧ a ≠ c) :
    Books next idOf used (insert (idOf c) lost) where
  distinct := fun a b ha hb => h.distinct a b ((hnext a).mp ha).1 ((hnext b).mp hb).1
  apart := by
    intro a ha
    obtain ⟨ha, hne⟩ := (hnext a).mp ha
    rw [Finset.mem_insert, not_or]
    exact ⟨fun heq => hne (h.distinct a c ha hc heq), h.apart a ha⟩
  mem_used := by
    intro id
    have hused : idOf c ∈ used := (h.mem_used _).mpr (Or.inl ⟨c, hc, rfl⟩)
    rw [Finset.mem_insert, or_left_comm, h.mem_used_ne c hc hnext]
    by_cases heq : id = idOf c
    · simp [heq, hused]
    · simp [heq]

theorem Books.lost_eq_empty_iff (h : Books holder idOf used lost) :
    lost = ∅ ↔ ∀ id, id ∈ used ↔ ∃ a, holder a ∧ idOf a = id := by
  constructor
  · rintro rfl id
    simp [h.mem_used]
  · intro hused
    rw [Finset.eq_empty_iff_forall_notMem]
    intro id hlost
    obtain ⟨a, ha, rfl⟩ := (hused id).mp ((h.mem_used id).mpr (Or.inr hlost))
    exact h.apart a ha hlost

end BlackCat.Leases
