import Mathlib.Algebra.BigOperators.Group.Finset.Piecewise
import Mathlib.Data.List.Basic
import Mathlib.Logic.Function.Basic

/-!
# Chains of queues

A message on its way through a chain of relays sits in one of several first-in
first-out queues. What matters about the chain is the list of everything in it,
the queue nearest the end first: an element moved from one queue to the next does
not change that list, one put in at the start appends to it, and one taken out at
the end is its head. One lost on the way is missing from the list, and that is all.

Several senders may share the queues. Elements then carry their sender's name,
and `lane` is what one sender has in each queue; an element moved for another
sender is not seen in it at all.

And nothing moves on forever: weigh every element by how far its queue is from the
end, and each move makes the whole lighter.
-/

namespace Pipeline

variable {σ α μ : Type} [DecidableEq σ]

/-- Everything a chain of queues holds, the queue nearest the end first. -/
def content (queues : σ → List α) (path : List σ) : List α := path.flatMap queues

section Content

variable {queues : σ → List α} {path : List σ}

/-- A queue outside the chain does not count. -/
theorem content_update_of_not_mem {s : σ} {xs : List α} (hs : s ∉ path) :
    content (Function.update queues s xs) path = content queues path := by
  refine List.flatMap_congr fun t ht => ?_
  rw [Function.update_of_ne]
  intro he
  exact hs (he ▸ ht)

/-- Elements put in at the start come last. -/
theorem content_push {pre : List σ} {s : σ} {xs : List α} (hpath : path = pre ++ [s])
    (hs : s ∉ pre) :
    content (Function.update queues s (queues s ++ xs)) path = content queues path ++ xs := by
  subst hpath
  unfold content
  rw [List.flatMap_append, List.flatMap_append, List.append_assoc]
  congr 1
  · exact content_update_of_not_mem hs
  · simp

/-- What is taken out at the end came first. -/
theorem content_pop {post : List σ} {s : σ} {x : α} {rest : List α} (hpath : path = s :: post)
    (hs : s ∉ post) (hq : queues s = x :: rest) :
    content queues path = x :: content (Function.update queues s rest) path := by
  subst hpath
  have hpost : content (Function.update queues s rest) post = content queues post :=
    content_update_of_not_mem hs
  unfold content at *
  rw [List.flatMap_cons, List.flatMap_cons, hpost, hq, Function.update_self]
  rfl

/-- **Moving on changes nothing.** -/
theorem content_move {pre post : List σ} {a b : σ} {x : α} {rest : List α}
    (hpath : path = pre ++ b :: a :: post) (hnd : path.Nodup) (hq : queues a = x :: rest) :
    content (Function.update (Function.update queues a rest) b (queues b ++ [x])) path
      = content queues path := by
  subst hpath
  have hnd' := List.nodup_append.mp hnd
  have hpre : ∀ t ∈ pre, t ≠ b ∧ t ≠ a := fun t ht =>
    ⟨hnd'.2.2 t ht b (by simp), hnd'.2.2 t ht a (by simp)⟩
  have hba : b ∉ a :: post := (List.nodup_cons.mp hnd'.2.1).1
  have hab : a ∉ post := (List.nodup_cons.mp (List.nodup_cons.mp hnd'.2.1).2).1
  have hne : a ≠ b := fun he => hba (by rw [he]; exact List.mem_cons_self ..)
  have hsame : ∀ path' : List σ, (∀ t ∈ path', t ≠ b ∧ t ≠ a) →
      content (Function.update (Function.update queues a rest) b (queues b ++ [x])) path'
        = content queues path' := by
    intro path' hpath'
    rw [content_update_of_not_mem fun hb => (hpath' b hb).1 rfl,
      content_update_of_not_mem fun ha => (hpath' a ha).2 rfl]
  have hpost := hsame post fun t ht =>
    ⟨fun he => hba (he ▸ List.mem_cons_of_mem _ ht), fun he => hab (he ▸ ht)⟩
  have hfront := hsame pre hpre
  unfold content at *
  rw [List.flatMap_append, List.flatMap_append, List.flatMap_cons, List.flatMap_cons,
    List.flatMap_cons, List.flatMap_cons, hpost, hfront, Function.update_self,
    Function.update_of_ne hne, Function.update_self, hq]
  simp

/-- **What is lost in one queue** is missing in one place, and nothing else is. -/
theorem content_drop {s : σ} {xs ys : List α} {x : α} (hs : s ∈ path) (hnd : path.Nodup)
    (hq : queues s = xs ++ x :: ys) :
    ∃ front back, content queues path = front ++ x :: back
      ∧ content (Function.update queues s (xs ++ ys)) path = front ++ back := by
  obtain ⟨pre, post, rfl⟩ := List.append_of_mem hs
  have hnd' := List.nodup_append.mp hnd
  have hpre : content (Function.update queues s (xs ++ ys)) pre = content queues pre :=
    content_update_of_not_mem fun hmem => hnd'.2.2 s hmem s (List.mem_cons_self ..) rfl
  have hpost : content (Function.update queues s (xs ++ ys)) post = content queues post :=
    content_update_of_not_mem (List.nodup_cons.mp hnd'.2.1).1
  unfold content at *
  refine ⟨pre.flatMap queues ++ xs, ys ++ post.flatMap queues, ?_, ?_⟩
  · rw [List.flatMap_append, List.flatMap_cons, hq]
    simp only [List.append_assoc, List.cons_append]
  · rw [List.flatMap_append, List.flatMap_cons, hpre, hpost, Function.update_self]
    simp only [List.append_assoc]

end Content

/-! ## Several senders -/

variable [DecidableEq μ]

/-- The elements of one sender. -/
def only (m : μ) (xs : List (μ × α)) : List α :=
  xs.filterMap fun e => if e.1 = m then some e.2 else none

/-- What one sender has in each queue. -/
def lane (m : μ) (queues : σ → List (μ × α)) : σ → List α := fun s => only m (queues s)

@[simp] theorem only_nil (m : μ) : only m ([] : List (μ × α)) = [] := rfl

theorem only_append (m : μ) (xs ys : List (μ × α)) :
    only m (xs ++ ys) = only m xs ++ only m ys := List.filterMap_append

theorem only_cons_self (m : μ) (x : α) (xs : List (μ × α)) :
    only m ((m, x) :: xs) = x :: only m xs := by
  simp [only]

theorem only_cons_of_ne {m m' : μ} (h : m' ≠ m) (x : α) (xs : List (μ × α)) :
    only m ((m', x) :: xs) = only m xs := by
  simp [only, h]

theorem only_map_self (m : μ) (xs : List α) : only m (xs.map fun x => (m, x)) = xs := by
  induction xs with
  | nil => rfl
  | cons x xs ih => rw [List.map_cons, only_cons_self, ih]

theorem only_of_subsingleton [Subsingleton μ] (m : μ) (xs : List (μ × α)) :
    only m xs = xs.map Prod.snd := by
  rw [← List.filterMap_eq_map]
  exact List.filterMap_congr fun e _ => if_pos (Subsingleton.elim _ _)

theorem only_map_of_ne {m m' : μ} (h : m' ≠ m) (xs : List α) :
    only m (xs.map fun x => (m', x)) = [] := by
  induction xs with
  | nil => rfl
  | cons x xs ih => rw [List.map_cons, only_cons_of_ne h, ih]

theorem lane_update (m : μ) (queues : σ → List (μ × α)) (s : σ) (xs : List (μ × α)) :
    lane m (Function.update queues s xs) = Function.update (lane m queues) s (only m xs) := by
  funext t
  by_cases ht : t = s
  · subst ht; simp [lane]
  · simp [lane, ht]

omit [DecidableEq σ] in
/-- The first of a queue is the first of its lane. -/
theorem lane_eq_cons {m : μ} {queues : σ → List (μ × α)} {s : σ} {x : α} {rest : List (μ × α)}
    (h : queues s = (m, x) :: rest) : lane m queues s = x :: only m rest := by
  show only m (queues s) = _
  rw [h, only_cons_self]

/-- A lane does not see the queues change for another sender. -/
theorem lane_update_of_only_eq {m : μ} {queues : σ → List (μ × α)} {s : σ} {xs : List (μ × α)}
    (h : only m xs = only m (queues s)) : lane m (Function.update queues s xs) = lane m queues := by
  rw [lane_update, h]
  exact Function.update_eq_self s (lane m queues)

/-! ## Tracing back -/

theorem mem_of_mem_only {m : μ} {x : α} {xs : List (μ × α)} (h : x ∈ only m xs) :
    (m, x) ∈ xs := by
  obtain ⟨e, he, hx⟩ := List.mem_filterMap.mp h
  split at hx
  · rename_i hm
    cases hx
    exact hm ▸ he
  · cases hx

theorem only_map_snd {β : Type} (m : μ) (f : α → β) (xs : List (μ × α)) :
    only m (xs.map fun e => (e.1, f e.2)) = (only m xs).map f := by
  induction xs with
  | nil => rfl
  | cons e xs ih =>
      obtain ⟨m', x⟩ := e
      rw [List.map_cons]
      by_cases hm : m' = m
      · subst hm
        rw [only_cons_self, only_cons_self, List.map_cons, ih]
      · rw [only_cons_of_ne hm, only_cons_of_ne hm, ih]

/--
**What has arrived can be traced back.** Where each sender's elements are the first
images of what it sent, the whole mixture is the image of a mixture of what was sent.
-/
theorem exists_traced {β : Type} {xs : List (μ × β)} {f : α → β} {sent : μ → List α}
    (h : ∀ m, only m xs <+: (sent m).map f) :
    ∃ zs : List (μ × α), zs.map (fun z => (z.1, f z.2)) = xs ∧ ∀ m, only m zs <+: sent m := by
  induction xs using List.reverseRecOn with
  | nil => exact ⟨[], rfl, fun m => List.nil_prefix⟩
  | append_singleton xs e ih =>
      obtain ⟨m, x⟩ := e
      obtain ⟨zs, rfl, hzs⟩ := ih fun m' =>
        (List.prefix_append _ _).trans ((only_append m' xs [(m, x)]).symm ▸ h m')
      -- the next of what `m` sent is where `x` comes from
      obtain ⟨rest, hrest⟩ := h m
      rw [only_append, only_cons_self, only_map_snd, List.append_assoc] at hrest
      obtain ⟨later, hlater⟩ := hzs m
      rw [← hlater, List.map_append] at hrest
      cases later with
      | nil => exact absurd (List.append_cancel_left hrest) (by simp)
      | cons a later =>
          have ha : x = f a := (List.cons.inj (List.append_cancel_left hrest)).1
          subst ha
          refine ⟨zs ++ [(m, a)], by simp, fun m' => ?_⟩
          rw [only_append]
          by_cases hm : m = m'
          · subst hm
            rw [only_cons_self, ← hlater]
            exact ⟨later, by simp⟩
          · rw [only_cons_of_ne hm, only_nil, List.append_nil]
            exact hzs m'

/-! ## How far everything has to go -/

section Load

variable {S : Finset σ} {weight : σ → Nat} {queues : σ → List α} {a b : σ} {x : α} {rest : List α}

/-- The elements in some queues, each weighing what its queue's elements weigh. -/
def load (S : Finset σ) (weight : σ → Nat) (queues : σ → List α) : Nat :=
  ∑ s ∈ S, weight s * (queues s).length

/-- Rewriting one queue changes one summand. -/
theorem load_update (weight : σ → Nat) (queues : σ → List α) (ha : a ∈ S) (xs : List α) :
    load S weight (Function.update queues a xs) + weight a * (queues a).length
      = load S weight queues + weight a * xs.length := by
  have hother : ∑ s ∈ S.erase a, weight s * (Function.update queues a xs s).length
      = ∑ s ∈ S.erase a, weight s * (queues s).length := by
    refine Finset.sum_congr rfl fun s hs => ?_
    rw [Function.update_of_ne (Finset.ne_of_mem_erase hs)]
  unfold load
  rw [← Finset.add_sum_erase S _ ha, ← Finset.add_sum_erase S (fun s => _ * (queues s).length) ha,
    hother, Function.update_self]
  omega

/-- **Taking an element out** makes the queues lighter. -/
theorem load_pop_lt (ha : a ∈ S) (hq : queues a = x :: rest) (hw : 0 < weight a) :
    load S weight (Function.update queues a rest) < load S weight queues := by
  have h := load_update weight queues ha rest
  rw [hq, List.length_cons, Nat.mul_succ] at h
  omega

/-- **Moving an element to a lighter queue** makes them lighter, too. -/
theorem load_move_lt (ha : a ∈ S) (hb : b ∈ S) (hne : a ≠ b) (hq : queues a = x :: rest)
    (hw : weight b < weight a) (y : α) :
    load S weight (Function.update (Function.update queues a rest) b (queues b ++ [y]))
      < load S weight queues := by
  have h₁ := load_update weight queues ha rest
  have h₂ := load_update weight (Function.update queues a rest) hb (queues b ++ [y])
  rw [hq, List.length_cons, Nat.mul_succ] at h₁
  rw [Function.update_of_ne hne.symm, List.length_append, List.length_singleton,
    Nat.mul_succ] at h₂
  omega

end Load

end Pipeline
