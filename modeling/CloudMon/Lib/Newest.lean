import Mathlib.Data.List.Induction
import Mathlib.Order.Lattice

/-!
# The newest of some values

Values come with times, one at most for a time, and a time may have none. The newest
is a value at the last time that has one; where several collections are looked at
together, two of them may have a value at that time, and either is a newest.

Looking through the values of ascending times from the back finds the newest.
-/

namespace Newest

variable {τ β : Type}

/-- The values at some times. -/
def Among (ks : List τ) (f : τ → Option β) (k : τ) (v : β) : Prop := k ∈ ks ∧ f k = some v

/-- The last time's value, or the one found before it. -/
theorem findSome?_reverse_concat (ks : List τ) (k : τ) (f : τ → Option β) :
    ((ks ++ [k]).map f).reverse.findSome? id = (f k).or ((ks.map f).reverse.findSome? id) := by
  rw [List.map_append, List.reverse_append]
  cases hk : f k <;> simp [hk]

/-- Nothing is found where there is nothing. -/
theorem findSome?_reverse_eq_none {ks : List τ} {f : τ → Option β} :
    (ks.map f).reverse.findSome? id = none ↔ ∀ k v, ¬ Among ks f k v := by
  rw [List.findSome?_eq_none_iff]
  refine ⟨?_, ?_⟩
  · intro h k v hk
    obtain ⟨hmem, hv⟩ := hk
    have hnone : f k = none := h (f k) (List.mem_reverse.mpr (List.mem_map.mpr ⟨k, hmem, rfl⟩))
    rw [hv] at hnone
    cases hnone
  · intro h x hx
    obtain ⟨k, hk, rfl⟩ := List.mem_map.mp (List.mem_reverse.mp hx)
    exact Option.eq_none_iff_forall_ne_some.mpr fun v hv => h k v ⟨hk, hv⟩

variable [LinearOrder τ]

/-- A value no other of `P` is later than. -/
def IsNewest (P : τ → β → Prop) (v : β) : Prop := ∃ k, P k v ∧ ∀ k' v', P k' v' → k' ≤ k

/-- Where a time has one value at most, there is one newest at most. -/
theorem IsNewest.unique {ks : List τ} {f : τ → Option β} {v v' : β}
    (h : IsNewest (Among ks f) v) (h' : IsNewest (Among ks f) v') : v = v' := by
  obtain ⟨k, hk, hlast⟩ := h
  obtain ⟨k', hk', hlast'⟩ := h'
  have heq : k = k' := le_antisymm (hlast' k v hk) (hlast k' v' hk')
  subst heq
  exact Option.some.inj (hk.2.symm.trans hk'.2)

/-- **Looking from the back finds the newest.** -/
theorem isNewest_of_findSome? {ks : List τ} (hks : ks.Pairwise (· < ·)) {f : τ → Option β} {v : β}
    (h : (ks.map f).reverse.findSome? id = some v) : IsNewest (Among ks f) v := by
  induction ks using List.reverseRecOn with
  | nil => cases h
  | append_singleton ks k ih =>
      rw [findSome?_reverse_concat] at h
      obtain ⟨hks', -, hlast⟩ := List.pairwise_append.mp hks
      cases hk : f k with
      | some u =>
          -- the last time has a value, and no other time is later
          rw [hk, Option.some_or, Option.some.injEq] at h
          subst h
          refine ⟨k, ⟨List.mem_append_right _ (List.mem_singleton_self k), hk⟩, ?_⟩
          intro k' v' hk'
          rcases List.mem_append.mp hk'.1 with hmem | hmem
          · exact (hlast k' hmem k (List.mem_singleton_self k)).le
          · exact (List.mem_singleton.mp hmem).le
      | none =>
          rw [hk, Option.none_or] at h
          obtain ⟨k', hk', hnewest⟩ := ih hks' h
          refine ⟨k', ⟨List.mem_append_left _ hk'.1, hk'.2⟩, ?_⟩
          intro k'' v'' hk''
          rcases List.mem_append.mp hk''.1 with hmem | hmem
          · exact hnewest k'' v'' ⟨hmem, hk''.2⟩
          · rw [List.mem_singleton.mp hmem, Among, hk] at hk''
            cases hk''.2

end Newest
