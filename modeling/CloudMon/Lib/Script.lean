import Mathlib.Data.List.Basic
import Mathlib.Logic.Relation

/-!
# Programs that run beside one another

A program is a tree of calls: it returns, raises, or asks something of the world and
goes on with the answer. Run alone, it makes its calls one after the other. Run beside
others it makes the same calls, but between two of them anything may have happened, so
what it did last says little about the world its next call finds.

What other programs need to know of one is what it may do next. `Along` is a property
of that kind: each answer leads to a rest of which something is known. It is read off
the tree once and then holds of whatever is left of the program at any time.

What a program does with an answer is another matter: it is right if the answer was, and
the answer was right if the others have kept to what they were allowed. `Keeps` and
`Honours` are the two sides of this, each relative to the calls made so far.
-/

/-- A program whose calls are `Op`, each with its own kind of answer. -/
inductive Script (Op : Type) (Ans : Op → Type) (ε α : Type) where
  | pure (a : α)
  | throw (e : ε)
  | call (op : Op) (next : Ans op → Script Op Ans ε α)

namespace Script

variable {Op : Type} {Ans : Op → Type} {ε α β σ : Type}

protected def bind : Script Op Ans ε α → (α → Script Op Ans ε β) → Script Op Ans ε β
  | .pure a, f => f a
  | .throw e, _ => .throw e
  | .call op next, f => .call op fun a => (next a).bind f

protected def tryCatch : Script Op Ans ε α → (ε → Script Op Ans ε α) → Script Op Ans ε α
  | .pure a, _ => .pure a
  | .throw e, handler => handler e
  | .call op next, handler => .call op fun a => (next a).tryCatch handler

instance : Monad (Script Op Ans ε) where
  pure := .pure
  bind := .bind

instance : MonadExceptOf ε (Script Op Ans ε) where
  throw := .throw
  tryCatch := .tryCatch

/-- A single call. -/
def perform (op : Op) : Script Op Ans ε (Ans op) := .call op .pure

/-! ## Alone -/

section Alone

-- What a call may answer, and the world after it.
variable (exec : (op : Op) → σ → Ans op → σ → Prop)

/-- What a program may come to when nothing else happens meanwhile. -/
def Outcome : Script Op Ans ε α → σ → Except ε α → σ → Prop
  | .pure a, s, r, s' => r = .ok a ∧ s' = s
  | .throw e, s, r, s' => r = .error e ∧ s' = s
  | .call op next, s, r, s' => ∃ a t, exec op s a t ∧ (next a).Outcome t r s'

/-- It comes to something, and whatever it comes to is in `Q`. -/
def Ends : Script Op Ans ε α → σ → (Except ε α → σ → Prop) → Prop
  | .pure a, s, Q => Q (.ok a) s
  | .throw e, s, Q => Q (.error e) s
  | .call op next, s, Q => (∃ a t, exec op s a t) ∧ ∀ a t, exec op s a t → (next a).Ends t Q

/-- The same calls, the world drifting before and after each. -/
def amid (drift : σ → σ → Prop) (op : Op) (s : σ) (a : Ans op) (s' : σ) : Prop :=
  ∃ t t', Relation.ReflTransGen drift s t ∧ exec op t a t' ∧ Relation.ReflTransGen drift t' s'

variable {exec} {p : Script Op Ans ε α} {s : σ} {Q : Except ε α → σ → Prop}

@[simp] theorem ends_pure {a : α} :
    (Pure.pure a : Script Op Ans ε α).Ends exec s Q ↔ Q (.ok a) s := Iff.rfl

@[simp] theorem ends_throw {e : ε} :
    (MonadExcept.throw e : Script Op Ans ε α).Ends exec s Q ↔ Q (.error e) s := Iff.rfl

theorem Ends.mono {Q' : Except ε α → σ → Prop} (h : p.Ends exec s Q)
    (hQ : ∀ r t, Q r t → Q' r t) : p.Ends exec s Q' := by
  induction p generalizing s with
  | pure a => exact hQ _ _ h
  | throw e => exact hQ _ _ h
  | call op next ih => exact ⟨h.1, fun a t hcall => ih a (h.2 a t hcall)⟩

/-- What a call comes to is what its answers come to. -/
theorem ends_call_congr {op : Op} {next : Ans op → Script Op Ans ε α}
    {next' : Ans op → Script Op Ans ε β} {Q' : Except ε β → σ → Prop}
    (h : ∀ a t, (next a).Ends exec t Q ↔ (next' a).Ends exec t Q') :
    (Script.call op next).Ends exec s Q ↔ (Script.call op next').Ends exec s Q' := by
  refine and_congr_right fun _ => ?_
  exact forall_congr' fun a => forall_congr' fun t => imp_congr_right fun _ => h a t

/-- **One program after the other.** -/
theorem ends_bind {f : α → Script Op Ans ε β} {Q : Except ε β → σ → Prop} :
    (p >>= f).Ends exec s Q ↔ p.Ends exec s fun
      | .ok a, t => (f a).Ends exec t Q
      | .error e, t => Q (.error e) t := by
  induction p generalizing s with
  | pure a => exact Iff.rfl
  | throw e => exact Iff.rfl
  | call op next ih => exact ends_call_congr fun a _ => ih a

theorem ends_ofExcept {r : Except ε α} :
    (ofExcept r : Script Op Ans ε α).Ends exec s Q ↔ Q r s := by
  cases r with
  | error e => exact Iff.rfl
  | ok a => exact Iff.rfl

/-- What is raised is the handler's to deal with. -/
theorem ends_tryCatch {handler : ε → Script Op Ans ε α} :
    (tryCatch p handler : Script Op Ans ε α).Ends exec s Q ↔ p.Ends exec s fun
      | .ok a, t => Q (.ok a) t
      | .error e, t => (handler e).Ends exec t Q := by
  induction p generalizing s with
  | pure a => exact Iff.rfl
  | throw e => exact Iff.rfl
  | call op next ih => exact ends_call_congr fun a _ => ih a

/-- A call that has one answer only. -/
theorem ends_perform {op : Op} {Q : Except ε (Ans op) → σ → Prop} {a : Ans op} {t : σ}
    (h : ∀ b u, exec op s b u ↔ b = a ∧ u = t) :
    (perform op : Script Op Ans ε (Ans op)).Ends exec s Q ↔ Q (.ok a) t := by
  refine ⟨fun hends => hends.2 a t ((h a t).mpr ⟨rfl, rfl⟩), fun hQ => ?_⟩
  refine ⟨⟨a, t, (h a t).mpr ⟨rfl, rfl⟩⟩, fun b u hcall => ?_⟩
  obtain ⟨rfl, rfl⟩ := (h b u).mp hcall
  exact hQ

/-- Whatever it has come to is in `Q`. -/
theorem Ends.of_outcome (h : p.Ends exec s Q) {r : Except ε α} {s' : σ}
    (hout : p.Outcome exec s r s') : Q r s' := by
  induction p generalizing s with
  | pure a => exact hout.1 ▸ hout.2 ▸ h
  | throw e => exact hout.1 ▸ hout.2 ▸ h
  | call op next ih =>
      obtain ⟨a, t, hcall, hrest⟩ := hout
      exact ih a (h.2 a t hcall) hrest

/-- It does come to something. -/
theorem Ends.exists_outcome (h : p.Ends exec s Q) :
    ∃ r s', p.Outcome exec s r s' ∧ Q r s' := by
  induction p generalizing s with
  | pure a => exact ⟨_, _, ⟨rfl, rfl⟩, h⟩
  | throw e => exact ⟨_, _, ⟨rfl, rfl⟩, h⟩
  | call op next ih =>
      obtain ⟨a, t, hcall⟩ := h.1
      obtain ⟨r, s', hrest, hQ⟩ := ih a (h.2 a t hcall)
      exact ⟨r, s', ⟨a, t, hcall, hrest⟩, hQ⟩

theorem Outcome.amidDrift {drift : σ → σ → Prop} {r : Except ε α} {s' : σ}
    (h : p.Outcome exec s r s') : p.Outcome (amid exec drift) s r s' := by
  induction p generalizing s with
  | pure a => exact h
  | throw e => exact h
  | call op next ih =>
      obtain ⟨a, t, hcall, hrest⟩ := h
      exact ⟨a, t, ⟨s, t, .refl, hcall, .refl⟩, ih a hrest⟩

end Alone

/-! ## What is left of a program -/

/-- Every call's answer leads to a rest that `R` allows. -/
def Along (R : (op : Op) → Ans op → Script Op Ans ε α → Prop) : Script Op Ans ε α → Prop
  | .pure _ => True
  | .throw _ => True
  | .call op next => ∀ a, R op a (next a) ∧ (next a).Along R

theorem along_true (p : Script Op Ans ε α) : p.Along fun _ _ _ => True := by
  induction p with
  | pure a => trivial
  | throw e => trivial
  | call op next ih => exact fun a => ⟨trivial, ih a⟩

/-- What no call along a program breaks still holds when it has come to something. -/
theorem Along.outcome {R : (op : Op) → Ans op → Script Op Ans ε α → Prop}
    {exec : (op : Op) → σ → Ans op → σ → Prop} {I : σ → Prop}
    (hI : ∀ op a rest t t', R op a rest → exec op t a t' → I t → I t')
    {p : Script Op Ans ε α} (hp : p.Along R) {s s' : σ} {r : Except ε α}
    (hout : p.Outcome exec s r s') (hs : I s) : I s' := by
  induction p generalizing s with
  | pure a => exact hout.2 ▸ hs
  | throw e => exact hout.2 ▸ hs
  | call op next ih =>
      obtain ⟨a, t, hcall, hrest⟩ := hout
      exact ih a (hp a).2 hrest (hI op a _ s t (hp a).1 hcall hs)

/-! ## What a program goes by -/

/-- A call with the answer it got. -/
abbrev Made (Op : Type) (Ans : Op → Type) := (op : Op) × Ans op

/-- Which calls are allowed, and which answers are to be believed, after some others. -/
structure Terms (Op : Type) (Ans : Op → Type) where
  allows : List (Made Op Ans) → Op → Prop
  tells : List (Made Op Ans) → (op : Op) → Ans op → Prop

/-- As long as what it is told is to be believed, each call of a program is allowed,
whatever has been called by others before it. -/
def Keeps (terms : Terms Op Ans) : Script Op Ans ε α → List (Made Op Ans) → Prop
  | .pure _, _ => True
  | .throw _, _ => True
  | .call op next, made => ∀ later, terms.allows (made ++ later) op ∧
      ∀ a, terms.tells (made ++ later) op a → (next a).Keeps terms (made ++ later ++ [⟨op, a⟩])

/-- A program keeps to its terms while others have their turn. -/
theorem Keeps.after {terms : Terms Op Ans} {p : Script Op Ans ε α} {made : List (Made Op Ans)}
    (h : p.Keeps terms made) (later : List (Made Op Ans)) : p.Keeps terms (made ++ later) := by
  cases p with
  | pure a => trivial
  | throw e => trivial
  | call op next =>
      intro later'
      rw [List.append_assoc]
      exact h (later ++ later')

end Script

/-! ## Beside one another -/

/-- What is left of each program that has been started, and the world they share. -/
structure Crowd (Op : Type) (Ans : Op → Type) (ε α σ : Type) where
  programs : List (Script Op Ans ε α)
  world : σ

namespace Crowd

open Script

variable {Op : Type} {Ans : Op → Type} {ε α σ : Type}

/-- What may happen next to some programs, and what the world may do of itself. -/
structure Rules (Op : Type) (Ans : Op → Type) (ε α σ : Type) where
  exec : (op : Op) → σ → Ans op → σ → Prop
  starts : Script Op Ans ε α → Prop
  drift : σ → σ → Prop

variable {rules : Rules Op Ans ε α σ}

/-- A call that a program is about to make, among others, and what comes of it. -/
structure Call (Op : Type) (Ans : Op → Type) (ε α σ : Type) where
  others : List (Script Op Ans ε α)
  before : σ
  op : Op
  answer : Ans op
  rest : Script Op Ans ε α

/-- One step, the calls made being among those `guard` lets pass. -/
inductive Step (rules : Rules Op Ans ε α σ) (guard : Call Op Ans ε α σ → Prop) :
    Crowd Op Ans ε α σ → Crowd Op Ans ε α σ → Prop where
  | start {ps : List (Script Op Ans ε α)} {s : σ} {p : Script Op Ans ε α} :
      rules.starts p → Step rules guard ⟨ps, s⟩ ⟨ps ++ [p], s⟩
  | call {ps qs : List (Script Op Ans ε α)} {s t : σ} {op : Op}
      {next : Ans op → Script Op Ans ε α} {a : Ans op} :
      rules.exec op s a t → guard ⟨ps ++ qs, s, op, a, next a⟩ →
      Step rules guard ⟨ps ++ .call op next :: qs, s⟩ ⟨ps ++ next a :: qs, t⟩
  | drift {ps : List (Script Op Ans ε α)} {s t : σ} :
      rules.drift s t → Step rules guard ⟨ps, s⟩ ⟨ps, t⟩

/-- The crowds some run leads to from a world with no program in it. -/
def Reached (rules : Rules Op Ans ε α σ) (guard : Call Op Ans ε α σ → Prop) (s : σ) :
    Crowd Op Ans ε α σ → Prop := Relation.ReflTransGen (Step rules guard) ⟨[], s⟩

/-- No call is held back. -/
def unguarded (_ : Call Op Ans ε α σ) : Prop := True

variable {guard : Call Op Ans ε α σ → Prop} {c c' : Crowd Op Ans ε α σ} {s s' : σ}

theorem Step.unguarded (h : Step rules guard c c') : Step rules Crowd.unguarded c c' := by
  cases h with
  | start hp => exact .start hp
  | call hexec _ => exact .call hexec trivial
  | drift hdrift => exact .drift hdrift

/-- **What holds along every program holds along whatever is left of any.** -/
theorem Reached.along {R : (op : Op) → Ans op → Script Op Ans ε α → Prop}
    (hstarts : ∀ p, rules.starts p → p.Along R) (h : Reached rules guard s c) :
    ∀ p ∈ c.programs, p.Along R := by
  induction h with
  | refl => exact nofun
  | tail _ hstep ih =>
      cases hstep with
      | start hp =>
          intro q hq
          rcases List.mem_append.mp hq with hq | hq
          · exact ih q hq
          · exact List.mem_singleton.mp hq ▸ hstarts _ hp
      | @call ps qs _ _ op next a _ _ =>
          intro q hq
          rcases List.mem_append.mp hq with hq | hq
          · exact ih q (List.mem_append_left _ hq)
          · rcases List.mem_cons.mp hq with rfl | hq
            · exact (ih (.call op next) (by simp) a).2
            · exact ih q (List.mem_append_right _ (List.mem_cons_of_mem _ hq))
      | drift _ => exact ih

/-- The crowds some run leads to, with the calls that were made on the way. -/
inductive Logged (rules : Rules Op Ans ε α σ) (guard : Call Op Ans ε α σ → Prop) (s : σ) :
    List (Made Op Ans) → Crowd Op Ans ε α σ → Prop where
  | none : Logged rules guard s [] ⟨[], s⟩
  | start {made : List (Made Op Ans)} {ps : List (Script Op Ans ε α)} {t : σ}
      {p : Script Op Ans ε α} :
      Logged rules guard s made ⟨ps, t⟩ → rules.starts p → Logged rules guard s made ⟨ps ++ [p], t⟩
  | call {made : List (Made Op Ans)} {ps qs : List (Script Op Ans ε α)} {t u : σ} {op : Op}
      {next : Ans op → Script Op Ans ε α} {a : Ans op} :
      Logged rules guard s made ⟨ps ++ .call op next :: qs, t⟩ → rules.exec op t a u →
      guard ⟨ps ++ qs, t, op, a, next a⟩ →
      Logged rules guard s (made ++ [⟨op, a⟩]) ⟨ps ++ next a :: qs, u⟩
  | drift {made : List (Made Op Ans)} {ps : List (Script Op Ans ε α)} {t u : σ} :
      Logged rules guard s made ⟨ps, t⟩ → rules.drift t u → Logged rules guard s made ⟨ps, u⟩

/-- What the world owes to the calls that were made, and what it tells the next. -/
structure Honours (rules : Rules Op Ans ε α σ) (guard : Call Op Ans ε α σ → Prop)
    (terms : Terms Op Ans) (I : List (Made Op Ans) → σ → Prop) : Prop where
  call {made : List (Made Op Ans)} {p : Call Op Ans ε α σ} {t : σ} :
    I made p.before → terms.allows made p.op → rules.exec p.op p.before p.answer t → guard p →
      terms.tells made p.op p.answer ∧ I (made ++ [⟨p.op, p.answer⟩]) t
  drift {made : List (Made Op Ans)} {t u : σ} : I made t → rules.drift t u → I made u

section Logged

variable {terms : Terms Op Ans} {I : List (Made Op Ans) → σ → Prop} {made : List (Made Op Ans)}

/-- **Programs that keep to the terms of a world that honours them**: the one relies on what
it is told, the other on what is allowed, and neither is broken first. -/
theorem Logged.keeps (h : Logged rules guard s made c) (hworld : Honours rules guard terms I)
    (hinit : I [] s) (hstarts : ∀ p, rules.starts p → p.Keeps terms []) :
    I made c.world ∧ ∀ p ∈ c.programs, p.Keeps terms made := by
  induction h with
  | none => exact ⟨hinit, nofun⟩
  | start _ hp ih =>
      refine ⟨ih.1, fun q hq => ?_⟩
      rcases List.mem_append.mp hq with hq | hq
      · exact ih.2 q hq
      · rw [List.mem_singleton.mp hq]
        exact (hstarts _ hp).after _
  | @call made ps qs _ _ op next a _ hexec hguard ih =>
      have hcall := ih.2 (.call op next) (List.mem_append_right _ List.mem_cons_self) []
      rw [List.append_nil] at hcall
      obtain ⟨htells, hI⟩ := hworld.call ih.1 hcall.1 hexec hguard
      refine ⟨hI, fun q hq => ?_⟩
      rcases List.mem_append.mp hq with hq | hq
      · exact (ih.2 q (List.mem_append_left _ hq)).after _
      · rcases List.mem_cons.mp hq with rfl | hq
        · exact hcall.2 a htells
        · exact (ih.2 q (List.mem_append_right _ (List.mem_cons_of_mem _ hq))).after _
  | drift _ hdrift ih => exact ⟨hworld.drift ih.1 hdrift, ih.2⟩

/-- **Every call that was made had been allowed.** -/
theorem Logged.allowed (h : Logged rules guard s made c) (hworld : Honours rules guard terms I)
    (hinit : I [] s) (hstarts : ∀ p, rules.starts p → p.Keeps terms [])
    {earlier later : List (Made Op Ans)} {m : Made Op Ans} (hm : made = earlier ++ m :: later) :
    terms.allows earlier m.1 := by
  induction h generalizing later with
  | none => exact absurd hm.symm (List.append_ne_nil_of_right_ne_nil _ (List.cons_ne_nil _ _))
  | start _ _ ih => exact ih hm
  | @call made ps qs _ _ op next a hlogged hexec hguard ih =>
      rcases List.eq_nil_or_concat later with rfl | ⟨later, m', rfl⟩
      · obtain ⟨rfl, heq⟩ := List.append_inj' hm rfl
        obtain rfl := List.singleton_inj.mp heq
        have hkeeps := (hlogged.keeps hworld hinit hstarts).2 (.call op next)
          (List.mem_append_right _ List.mem_cons_self) []
        exact List.append_nil made ▸ hkeeps.1
      · rw [List.concat_eq_append, ← List.cons_append, ← List.append_assoc] at hm
        exact ih (List.append_inj' hm rfl).1
  | drift _ _ ih => exact ih hm

end Logged

/--
**Running alone is one way of running beside others**: nobody else has a turn meanwhile. The
guard has to let pass what the program does there.
-/
theorem reached_outcome {exec : (op : Op) → σ → Ans op → σ → Prop}
    {R : (op : Op) → Ans op → Script Op Ans ε α → Prop} {ps : List (Script Op Ans ε α)}
    (hpass : ∀ op a rest t u, R op a rest → exec op t a u →
      rules.exec op t a u ∧ guard ⟨ps, t, op, a, rest⟩)
    {p : Script Op Ans ε α} (halong : p.Along R) {r : Except ε α}
    (h : Relation.ReflTransGen (Step rules guard) c ⟨ps ++ [p], s⟩) (hout : p.Outcome exec s r s') :
    Relation.ReflTransGen (Step rules guard) c ⟨ps ++ [ofExcept r], s'⟩ := by
  induction p generalizing s with
  | pure a =>
      obtain ⟨rfl, rfl⟩ := hout
      exact h
  | throw e =>
      obtain ⟨rfl, rfl⟩ := hout
      exact h
  | call op next ih =>
      obtain ⟨a, t, hcall, hrest⟩ := hout
      obtain ⟨hexec, hguard⟩ := hpass op a (next a) s t (halong a).1 hcall
      rw [← List.append_nil ps] at hguard
      exact ih a (halong a).2 (h.tail (.call hexec hguard)) hrest

/-- A program that is started, and left alone until it has come to something. -/
theorem Reached.command {p : Script Op Ans ε α} {r : Except ε α} {ps : List (Script Op Ans ε α)}
    {t : σ} (h : Reached rules Crowd.unguarded s ⟨ps, t⟩) (hp : rules.starts p)
    (hout : p.Outcome rules.exec t r s') :
    Reached rules Crowd.unguarded s ⟨ps ++ [ofExcept r], s'⟩ :=
  reached_outcome (fun _ _ _ _ _ _ hexec => ⟨hexec, trivial⟩) (along_true p) (h.tail (.start hp))
    hout

end Crowd
