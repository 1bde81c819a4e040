import Mathlib.Algebra.BigOperators.Group.List.Basic
import Mathlib.Tactic.Linarith

/-!
# Publishing a counter by its differences

A `Channel` turns a stream of readings, some of them missing, into a stream of
differences: a missing reading repeats the value before it. Once it has taken one
step the value it will subtract from is the value it holds, and from there on its
outputs telescope.

Two questions are settled here for any such channel. Do the outputs since the
first reading add up to the change of the counter? And do two channels that
started from different contents publish the same?
-/

/-- The value held and the value last published against. -/
structure Channel (α : Type) where
  cur : α
  last : α
deriving DecidableEq

namespace Channel

variable {α : Type}

/-! ## What a record of readings and outputs should say -/

section Accounting

variable (φ : α → ℤ)

/-- The outputs up to any later reading add up to the change from `b` to that reading. -/
def AccountsFrom (b : ℤ) (record : List (Option α × α)) : Prop :=
  ∀ mid v o rest, record = mid ++ (some v, o) :: rest →
    ((mid ++ [(some v, o)]).map fun e => φ e.2).sum = φ v - b

/--
The outputs after the first reading, up to and including any later one, add up to
the difference of the two readings.
-/
def Accounts (record : List (Option α × α)) : Prop :=
  ∀ before v o rest, record = before ++ (some v, o) :: rest → (∀ e ∈ before, e.1 = none) →
    AccountsFrom φ (φ v) rest

variable {φ}

theorem accountsFrom_nil (b : ℤ) : AccountsFrom φ b ([] : List (Option α × α)) := by
  intro mid v o rest h
  simp at h

theorem accountsFrom_cons {b : ℤ} {r : Option α} {o : α} {record : List (Option α × α)} :
    AccountsFrom φ b ((r, o) :: record)
      ↔ (∀ v, r = some v → φ o = φ v - b) ∧ AccountsFrom φ (b + φ o) record := by
  refine ⟨?_, ?_⟩
  · intro h
    refine ⟨fun v hv => ?_, fun mid v o' rest hrec => ?_⟩
    · have := h [] v o record (by rw [hv]; rfl)
      simpa using this
    · have := h ((r, o) :: mid) v o' rest (by rw [hrec]; rfl)
      rw [List.cons_append, List.map_cons, List.sum_cons] at this
      linarith
  · intro hboth mid v o' rest hrec
    obtain ⟨hr, hrest⟩ := hboth
    cases mid with
    | nil =>
        rw [List.nil_append, List.cons.injEq, Prod.mk.injEq] at hrec
        obtain ⟨⟨hr', rfl⟩, _⟩ := hrec
        simpa using hr v hr'
    | cons e mid =>
        rw [List.cons_append, List.cons.injEq] at hrec
        obtain ⟨rfl, hrec⟩ := hrec
        rw [List.cons_append, List.map_cons, List.sum_cons]
        have := hrest mid v o' rest hrec
        linarith

/-- Accounting starts with the first reading. -/
theorem accounts_cons_none {o : α} {record : List (Option α × α)} :
    Accounts φ ((none, o) :: record) ↔ Accounts φ record := by
  refine ⟨?_, ?_⟩
  · intro h before v o' rest hrec hnone
    refine h ((none, o) :: before) v o' rest (by rw [hrec]; rfl) fun e he => ?_
    rcases List.mem_cons.mp he with rfl | he
    · rfl
    · exact hnone e he
  · intro h before v o' rest hrec hnone
    cases before with
    | nil => simp at hrec
    | cons e before =>
        rw [List.cons_append, List.cons.injEq] at hrec
        exact h before v o' rest hrec.2 fun e he => hnone e (List.mem_cons_of_mem _ he)

theorem accounts_cons_some {v o : α} {record : List (Option α × α)} :
    Accounts φ ((some v, o) :: record) ↔ AccountsFrom φ (φ v) record := by
  refine ⟨?_, ?_⟩
  · intro h
    exact h [] v o record rfl (by simp)
  · intro h before v' o' rest hrec hnone
    cases before with
    | nil =>
        rw [List.nil_append, List.cons.injEq, Prod.mk.injEq, Option.some.injEq] at hrec
        obtain ⟨⟨rfl, rfl⟩, rfl⟩ := hrec
        exact h
    | cons e before =>
        rw [List.cons_append, List.cons.injEq] at hrec
        have := hnone e (List.mem_cons_self ..)
        rw [← hrec.1] at this
        cases this

end Accounting

/-! ## The channel -/

variable [Sub α]

/-- The difference published for a reading, and the channel after it. -/
def step (c : Channel α) (reading : Option α) : α × Channel α :=
  (reading.getD c.cur - c.last, ⟨reading.getD c.cur, reading.getD c.cur⟩)

def outputs (c : Channel α) : List (Option α) → List α
  | [] => []
  | r :: rs => (c.step r).1 :: outputs (c.step r).2 rs

theorem length_outputs (c : Channel α) (rs : List (Option α)) :
    (c.outputs rs).length = rs.length := by
  induction rs generalizing c with
  | nil => rfl
  | cons r rs ih => rw [outputs, List.length_cons, ih, List.length_cons]

section Telescoping

variable {φ : α → ℤ}

/-- A difference the number type can hold. -/
def Exact (φ : α → ℤ) (v v' : α) : Prop := φ (v' - v) = φ v' - φ v

variable (hzero : ∀ v : α, φ (v - v) = 0)

include hzero

theorem accountsFrom_outputs (u : α) (rs : List (Option α)) :
    AccountsFrom φ (φ u) (rs.zip (outputs ⟨u, u⟩ rs))
      ↔ (u :: rs.filterMap id).IsChain (Exact φ) := by
  induction rs generalizing u with
  | nil => exact iff_of_true (accountsFrom_nil _) (.singleton _)
  | cons r rs ih =>
      rw [outputs, List.zip_cons_cons, accountsFrom_cons]
      cases r with
      | none =>
          -- nothing was read: the difference is zero, and the sum stays where it was
          have hstep : φ u + φ (step ⟨u, u⟩ none).1 = φ u := by
            show φ u + φ (u - u) = _
            rw [hzero, add_zero]
          rw [hstep]
          exact (and_iff_right (by simp)).trans (ih u)
      | some v =>
          show _ ↔ (u :: v :: rs.filterMap id).IsChain (Exact φ)
          rw [List.isChain_cons_cons, ← ih v]
          have hhead : (∀ x, some v = some x → φ (v - u) = φ x - φ u) ↔ Exact φ u v := by
            refine ⟨fun h => h v rfl, fun h x hx => ?_⟩
            cases hx
            exact h
          show (∀ x, some v = some x → φ (v - u) = φ x - φ u) ∧ _ ↔ _
          rw [hhead]
          refine and_congr_right fun hexact => ?_
          -- an exact difference takes the sum to the new reading
          have hnext : φ u + φ (step ⟨u, u⟩ (some v)).1 = φ v := by
            show φ u + φ (v - u) = φ v
            rw [hexact]; linarith
          rw [hnext]; rfl

/-- **A channel accounts for its counter** exactly when no single difference overflows. -/
theorem accounts_outputs (c : Channel α) (rs : List (Option α)) :
    Accounts φ (rs.zip (c.outputs rs)) ↔ (rs.filterMap id).IsChain (Exact φ) := by
  induction rs generalizing c with
  | nil =>
      refine iff_of_true ?_ List.IsChain.nil
      intro before v o rest h
      simp at h
  | cons r rs ih =>
      rw [outputs, List.zip_cons_cons]
      cases r with
      | none => exact accounts_cons_none.trans (ih _)
      | some v => exact accounts_cons_some.trans (accountsFrom_outputs hzero v rs)

/-- The outputs of a settled channel take it to the last reading, later failures included. -/
theorem sum_outputs_settled {u : α} {rs : List (Option α)}
    (h : (u :: rs.filterMap id).IsChain (Exact φ)) :
    ((outputs ⟨u, u⟩ rs).map φ).sum = φ ((rs.filterMap id).getLastD u) - φ u := by
  induction rs generalizing u with
  | nil => simp [outputs]
  | cons r rs ih =>
      rw [outputs, List.map_cons, List.sum_cons]
      cases r with
      | none =>
          show φ (u - u) + ((outputs ⟨u, u⟩ rs).map φ).sum = _
          rw [hzero, zero_add, ih h]
          rfl
      | some v =>
          have hchain : (u :: v :: rs.filterMap id).IsChain (Exact φ) := h
          rw [List.isChain_cons_cons] at hchain
          obtain ⟨hexact, hrest⟩ := hchain
          show φ (v - u) + ((outputs ⟨v, v⟩ rs).map φ).sum = _
          have hlast : ((some v :: rs).filterMap id).getLastD u = (rs.filterMap id).getLastD v :=
            List.getLastD_cons
          rw [ih hrest, hexact, hlast]
          linarith

theorem accountsFrom_stuck (b u : α) (rs : List (Option α)) :
    AccountsFrom φ (φ b) (rs.zip (outputs ⟨u, u⟩ (rs.map fun _ => none)))
      ↔ (b :: rs.filterMap id).IsChain fun v v' => φ v = φ v' := by
  induction rs generalizing b with
  | nil => exact iff_of_true (accountsFrom_nil _) (.singleton _)
  | cons r rs ih =>
      rw [List.map_cons, outputs, List.zip_cons_cons, accountsFrom_cons]
      -- whatever was read, what is published is zero
      have hout : φ (step ⟨u, u⟩ (none : Option α)).1 = 0 := hzero u
      rw [hout, add_zero]
      cases r with
      | none => exact (and_iff_right (by simp)).trans (ih b)
      | some v =>
          show _ ↔ (b :: v :: rs.filterMap id).IsChain _
          rw [List.isChain_cons_cons, ← ih v]
          refine ⟨?_, ?_⟩
          · intro hboth
            obtain ⟨hv, hrest⟩ := hboth
            have heq : φ b = φ v := by have := hv v rfl; linarith
            rw [heq] at hrest
            exact ⟨heq, hrest⟩
          · intro hboth
            obtain ⟨heq, hrest⟩ := hboth
            rw [heq]
            refine ⟨fun x hx => ?_, hrest⟩
            cases hx
            linarith

/-- A channel no reading reaches accounts only for a counter that stands still. -/
theorem accounts_stuck (c : Channel α) (rs : List (Option α)) :
    Accounts φ (rs.zip (c.outputs (rs.map fun _ => none)))
      ↔ (rs.filterMap id).IsChain fun v v' => φ v = φ v' := by
  induction rs generalizing c with
  | nil =>
      refine iff_of_true ?_ List.IsChain.nil
      intro before v o rest h
      simp at h
  | cons r rs ih =>
      rw [List.map_cons, outputs, List.zip_cons_cons]
      cases r with
      | none => exact accounts_cons_none.trans (ih _)
      | some v => exact accounts_cons_some.trans (accountsFrom_stuck hzero v _ rs)

end Telescoping

/-! ## Two channels, the same readings -/

/-- The two channels publish the same first difference, and hold the same where it will show. -/
def Agree (c c' : Channel α) : List (Option α) → Prop
  | [] => True
  | r :: rs => (c.step r).1 = (c'.step r).1 ∧ (r = none → (∃ v, some v ∈ rs) → c.cur = c'.cur)

variable (hzero : ∀ u v : α, u - u = v - v) (hcancel : ∀ x u v : α, x - u = x - v → u = v)

include hzero hcancel in
theorem outputs_settled_eq_iff (u v : α) (rs : List (Option α)) :
    outputs ⟨u, u⟩ rs = outputs ⟨v, v⟩ rs ↔ ((∃ x, some x ∈ rs) → u = v) := by
  induction rs with
  | nil => simp [outputs]
  | cons r rs ih =>
      rw [outputs, outputs, List.cons.injEq]
      cases r with
      | none =>
          show u - u = v - v ∧ outputs ⟨u, u⟩ rs = outputs ⟨v, v⟩ rs ↔ _
          rw [and_iff_right (hzero u v), ih]
          simp
      | some x =>
          show x - u = x - v ∧ outputs ⟨x, x⟩ rs = outputs ⟨x, x⟩ rs ↔ _
          refine ⟨?_, ?_⟩
          · intro hboth _
            obtain ⟨h, _⟩ := hboth
            exact hcancel x u v h
          · intro h
            rw [h ⟨x, List.mem_cons_self ..⟩]
            exact ⟨rfl, rfl⟩

include hzero hcancel in
/-- **Two channels publish the same** exactly when they agree. -/
theorem outputs_eq_iff (c c' : Channel α) (rs : List (Option α)) :
    c.outputs rs = c'.outputs rs ↔ Agree c c' rs := by
  cases rs with
  | nil => exact iff_of_true rfl trivial
  | cons r rs =>
      rw [outputs, outputs, List.cons.injEq]
      refine and_congr_right fun _ => ?_
      cases r with
      | none =>
          exact (outputs_settled_eq_iff hzero hcancel c.cur c'.cur rs).trans
            ⟨fun h _ => h, fun h => h rfl⟩
      | some x => exact iff_of_true rfl (by simp)

end Channel
