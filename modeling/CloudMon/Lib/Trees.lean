import Mathlib.Data.Rat.Floor

/-!
# Search trees, read as ordered lists

`Std`'s extensional maps and sets stand for `std::map` and `std::set`: their
`toList` is the order an iterator visits. The lemmas here restate the map's
equations for a key type with decidable equality, where `compare k a = .eq` is
just `k = a`, and say when a map and a set are walked in the same order.
-/

namespace Trees

open Std

variable {α β : Type} [Ord α]

theorem nodup_of_pairwise_lt [LawfulEqOrd α] {l : List α}
    (h : l.Pairwise (fun a b => compare a b = .lt)) : l.Nodup :=
  h.imp fun hc he => by rw [Std.compare_eq_iff_eq.mpr he] at hc; cases hc

variable [TransOrd α]

theorem mem_iff_getElem? {m : ExtTreeMap α β} {a : α} : a ∈ m ↔ ∃ v, m[a]? = some v := by
  rw [ExtTreeMap.mem_iff_isSome_getElem?, Option.isSome_iff_exists]

theorem getElem?_eq_none {m : ExtTreeMap α β} {a : α} : m[a]? = none ↔ a ∉ m := by
  rw [mem_iff_getElem?, Option.eq_none_iff_forall_ne_some]; simp

theorem set_pairwise_lt {s : ExtTreeSet α} : s.toList.Pairwise (fun a b => compare a b = .lt) :=
  ExtTreeSet.ordered_toList

variable [LawfulEqOrd α]

theorem set_nodup {s : ExtTreeSet α} : s.toList.Nodup := nodup_of_pairwise_lt set_pairwise_lt

/-- **Equal key sets are visited in the same order.** -/
theorem keys_eq_toList {m : ExtTreeMap α β} {s : ExtTreeSet α} (h : ∀ k, k ∈ m ↔ k ∈ s) :
    m.toList.map Prod.fst = s.toList := by
  have hmem : ∀ k, k ∈ m.toList.map Prod.fst ↔ k ∈ s.toList := by
    intro k
    rw [ExtTreeMap.map_fst_toList_eq_keys, ExtTreeMap.mem_keys, ExtTreeSet.mem_toList, h]
  have hord : (m.toList.map Prod.fst).Pairwise (fun a b => compare a b = .lt) :=
    List.pairwise_map.mpr ExtTreeMap.ordered_keys_toList
  refine List.Perm.eq_of_pairwise (fun a b _ _ hab hba => ?_) hord set_pairwise_lt
    ((List.perm_ext_iff_of_nodup (nodup_of_pairwise_lt hord) set_nodup).mpr hmem)
  exact absurd hba (OrientedCmp.not_lt_of_lt hab)

variable [DecidableEq α]

theorem getElem?_insert {m : ExtTreeMap α β} {k a : α} {v : β} :
    (m.insert k v)[a]? = if k = a then some v else m[a]? := by
  rw [ExtTreeMap.getElem?_insert]
  by_cases h : k = a
  · rw [if_pos h, if_pos (Std.compare_eq_iff_eq.mpr h)]
  · rw [if_neg h, if_neg (fun hc => h (Std.compare_eq_iff_eq.mp hc))]

theorem getElem?_erase {m : ExtTreeMap α β} {k a : α} :
    (m.erase k)[a]? = if k = a then none else m[a]? := by
  rw [ExtTreeMap.getElem?_erase]
  by_cases h : k = a
  · rw [if_pos h, if_pos (Std.compare_eq_iff_eq.mpr h)]
  · rw [if_neg h, if_neg (fun hc => h (Std.compare_eq_iff_eq.mp hc))]

/-- Writing a key twice keeps the second value. -/
theorem insert_insert {m : ExtTreeMap α β} {k : α} {v v' : β} :
    (m.insert k v).insert k v' = m.insert k v' := by
  refine ExtTreeMap.ext_getElem? fun a => ?_
  rw [getElem?_insert, getElem?_insert, getElem?_insert]
  split <;> rfl

end Trees
