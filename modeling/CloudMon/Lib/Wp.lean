import Mathlib.Data.List.Basic

/-!
# Weakest preconditions for programs that may throw

`EStateM ε σ` is the monad of a program that keeps its side effects when an
exception leaves it: what was written before the throw stays written. That is
the C++ reading of an exception, and it is the reason a postcondition comes in
two halves here: `Q` for a normal return and `E` for a throw, both about the
state at that moment.

`wp x s Q E` is defined by running `x`, so the rules below are equations and a
proof can rewrite with them. Only the loop needs an idea, and its rule says so:
the invariant is indexed by the part of the list already done.
-/

namespace Wp

variable {ε σ α β : Type}

/-- `x`, started in `s`, returns in a state where `Q` holds or throws in one where `E` does. -/
def wp (x : EStateM ε σ α) (s : σ) (Q : α → σ → Prop) (E : ε → σ → Prop) : Prop :=
  match x s with
  | .ok a s' => Q a s'
  | .error e s' => E e s'

/-- A run can be tried out. -/
instance {x : EStateM ε σ α} {s : σ} {Q : α → σ → Prop} {E : ε → σ → Prop}
    [∀ a s, Decidable (Q a s)] [∀ e s, Decidable (E e s)] : Decidable (wp x s Q E) :=
  match h : x s with
  | .ok a s' => decidable_of_iff (Q a s') (by rw [wp, h])
  | .error e s' => decidable_of_iff (E e s') (by rw [wp, h])

/-- The exceptional half of a postcondition that forbids every throw. -/
abbrev noThrow : ε → σ → Prop := fun _ _ => False

variable {s : σ} {Q : α → σ → Prop} {E : ε → σ → Prop}

@[simp] theorem wp_pure {a : α} : wp (pure a : EStateM ε σ α) s Q E ↔ Q a s := Iff.rfl

@[simp] theorem wp_throw {e : ε} : wp (throw e : EStateM ε σ α) s Q E ↔ E e s := Iff.rfl

@[simp] theorem wp_get {Q : σ → σ → Prop} : wp (get : EStateM ε σ σ) s Q E ↔ Q s s := Iff.rfl

@[simp] theorem wp_modify {f : σ → σ} {Q : PUnit → σ → Prop} :
    wp (modify f : EStateM ε σ PUnit) s Q E ↔ Q ⟨⟩ (f s) := Iff.rfl

/-- **Sequencing.** What must hold before the first half is the precondition of the second. -/
@[simp] theorem wp_bind {x : EStateM ε σ α} {f : α → EStateM ε σ β} {Q : β → σ → Prop} :
    wp (x >>= f) s Q E ↔ wp x s (fun a s' => wp (f a) s' Q E) E := by
  unfold wp
  show (match EStateM.bind x f s with | .ok a s' => Q a s' | .error e s' => E e s') ↔ _
  unfold EStateM.bind
  cases x s <;> rfl

theorem bind_ok {x : EStateM ε σ α} {f : α → EStateM ε σ β} {a : α} {b : β} {s' s'' : σ}
    (hx : x s = .ok a s') (hf : f a s' = .ok b s'') : (x >>= f) s = .ok b s'' := by
  show EStateM.bind x f s = _
  rw [EStateM.bind, hx]
  exact hf

/-- Nothing comes after a throw. -/
theorem bind_error {x : EStateM ε σ α} {f : α → EStateM ε σ β} {e : ε} {s' : σ}
    (hx : x s = .error e s') : (x >>= f) s = .error e s' := by
  show EStateM.bind x f s = _
  rw [EStateM.bind, hx]

theorem wp_ite {p : Prop} [Decidable p] {x y : EStateM ε σ α} :
    wp (if p then x else y) s Q E ↔ (p → wp x s Q E) ∧ (¬ p → wp y s Q E) := by
  by_cases hp : p <;> simp [hp]

theorem wp_mono {x : EStateM ε σ α} {Q' : α → σ → Prop} {E' : ε → σ → Prop}
    (h : wp x s Q E) (hQ : ∀ a s', Q a s' → Q' a s') (hE : ∀ e s', E e s' → E' e s') :
    wp x s Q' E' := by
  unfold wp at h ⊢
  cases hx : x s with
  | ok a s' => rw [hx] at h; exact hQ a s' h
  | error e s' => rw [hx] at h; exact hE e s' h

/-- Two facts about one run, put together. -/
theorem wp_and {x : EStateM ε σ α} {Q' : α → σ → Prop} {E' : ε → σ → Prop}
    (h : wp x s Q E) (h' : wp x s Q' E') :
    wp x s (fun a t => Q a t ∧ Q' a t) (fun e t => E e t ∧ E' e t) := by
  unfold wp at h h' ⊢
  cases hx : x s with
  | ok a t => rw [hx] at h h'; exact ⟨h, h'⟩
  | error e t => rw [hx] at h h'; exact ⟨h, h'⟩

/-- A run has one outcome, so denying both halves denies the whole. -/
theorem wp_not {x : EStateM ε σ α} :
    wp x s (fun a t => ¬ Q a t) (fun e t => ¬ E e t) ↔ ¬ wp x s Q E := by
  unfold wp
  cases x s <;> rfl

/-- A loop over distinct elements has not met the one it comes to. -/
theorem not_mem_done {xs done todo : List α} {x : α} (hnd : xs.Nodup)
    (hxs : xs = done ++ x :: todo) : x ∉ done := by
  subst hxs
  intro hx
  exact (List.nodup_append.mp hnd).2.2 x hx x (List.mem_cons_self ..) rfl

/-- **The loop rule.** `I done` holds whenever the loop has finished exactly `done`. -/
theorem wp_forM {f : α → EStateM ε σ PUnit} (I : List α → σ → Prop) {xs : List α}
    (hstep : ∀ done x todo t, xs = done ++ x :: todo → I done t →
      wp (f x) t (fun _ t' => I (done ++ [x]) t') E)
    (hinit : I [] s) : wp (xs.forM f) s (fun _ t => I xs t) E := by
  suffices h : ∀ todo done t, xs = done ++ todo → I done t →
      wp (todo.forM f) t (fun _ t' => I xs t') E from h xs [] s rfl hinit
  intro todo
  induction todo with
  | nil =>
      intro done t hxs ht
      rw [List.append_nil] at hxs
      exact hxs ▸ ht
  | cons x todo ih =>
      intro done t hxs ht
      show wp (f x >>= fun _ => todo.forM f) t _ E
      refine wp_bind.mpr (wp_mono (hstep done x todo t hxs ht) (fun _ t' ht' => ?_)
        (fun _ _ he => he))
      exact ih (done ++ [x]) t' (by rw [hxs, List.append_assoc]; rfl) ht'

/-- A loop over nothing does nothing. -/
@[simp] theorem wp_forM_nil {f : α → EStateM ε σ PUnit} {Q : PUnit → σ → Prop} :
    wp (([] : List α).forM f) s Q E ↔ Q ⟨⟩ s := Iff.rfl

/-- A loop that skips some elements is a loop over the others. -/
theorem forM_filter {p : α → Prop} [DecidablePred p] {f : α → EStateM ε σ PUnit} :
    ∀ xs : List α, (xs.forM fun x => if p x then f x else pure ⟨⟩)
      = (xs.filter fun x => decide (p x)).forM f
  | [] => rfl
  | x :: xs => by
      show ((if p x then f x else pure ⟨⟩) >>= fun _ => xs.forM _) = _
      rw [forM_filter xs]
      by_cases hx : p x
      · rw [if_pos hx, List.filter_cons_of_pos (by simpa using hx)]; rfl
      · rw [if_neg hx, List.filter_cons_of_neg (by simpa using hx)]; rfl

/-- A run that cannot throw has a result. -/
theorem wp_noThrow {x : EStateM ε σ α} (h : wp x s Q noThrow) :
    ∃ a s', x s = .ok a s' ∧ Q a s' := by
  unfold wp at h
  cases hx : x s with
  | ok a s' => rw [hx] at h; exact ⟨a, s', rfl, h⟩
  | error e s' => rw [hx] at h; exact h.elim

/-- A run that cannot return has thrown. -/
theorem wp_throws {x : EStateM ε σ α} (h : wp x s (fun _ _ => False) E) :
    ∃ e s', x s = .error e s' ∧ E e s' := by
  unfold wp at h
  cases hx : x s with
  | ok a s' => rw [hx] at h; exact h.elim
  | error e s' => rw [hx] at h; exact ⟨e, s', rfl, h⟩

/-- What holds of every normal return holds of this one. -/
theorem wp_of_ok {x : EStateM ε σ α} {a : α} {s' : σ}
    (h : wp x s Q E) (hx : x s = .ok a s') : Q a s' := by
  unfold wp at h; rw [hx] at h; exact h

/-- And likewise for a throw. -/
theorem wp_of_error {x : EStateM ε σ α} {e : ε} {s' : σ}
    (h : wp x s Q E) (hx : x s = .error e s') : E e s' := by
  unfold wp at h; rw [hx] at h; exact h

/-! ## How far a loop gets -/

section

variable {f : α → EStateM ε σ PUnit}

end

/-! ## What a program never changes -/

/-- `I` holds after `x` if it held before, whichever way `x` ends. -/
def Preserves (I : σ → Prop) (x : EStateM ε σ α) : Prop :=
  ∀ s, I s → wp x s (fun _ s' => I s') (fun _ s' => I s')

section

variable {I : σ → Prop}

theorem Preserves.pure (a : α) : Preserves I (pure a : EStateM ε σ α) := fun _ hs => hs

theorem Preserves.throw (e : ε) : Preserves I (throw e : EStateM ε σ α) := fun _ hs => hs

theorem Preserves.bind {x : EStateM ε σ α} {f : α → EStateM ε σ β} (hx : Preserves I x)
    (hf : ∀ a, Preserves I (f a)) : Preserves I (x >>= f) := by
  intro s hs
  rw [wp_bind]
  exact wp_mono (hx s hs) (fun a s' hs' => hf a s' hs') fun _ _ hs' => hs'

theorem Preserves.ite {p : Prop} [Decidable p] {x y : EStateM ε σ α} (hx : Preserves I x)
    (hy : Preserves I y) : Preserves I (if p then x else y) := by
  split
  · exact hx
  · exact hy

end

end Wp
