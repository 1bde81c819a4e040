import CloudMon.Lib.Words

/-!
# Paths, read lexically

A path is a text with separators in it. The file system does not see how many of
them stand in a row, so what a path says is its list of non-empty components, and
two paths with the same components lead to the same place, links aside.

Normalising replays the components one after the other: the name of the directory
itself changes nothing, the name of the one above takes back the component before.
A component that is neither of the two can only lead further down, which is all that
a proof of confinement needs.
-/

namespace Paths

open Words

variable {α : Type}

section

variable [DecidableEq α] {slash : α}

/-- What is left of a path once its separators are gone. -/
def components (slash : α) (p : List α) : List (List α) := words (· == slash) p

theorem components_append_cons (p r : List α) :
    components slash (p ++ slash :: r) = components slash p ++ components slash r :=
  @words_append_space _ (· == slash) p _ (beq_self_eq_true slash) r

theorem components_cons (p : List α) : components slash (slash :: p) = components slash p :=
  @words_cons_space _ (· == slash) _ (beq_self_eq_true slash) p

theorem components_concat (p : List α) : components slash (p ++ [slash]) = components slash p :=
  @words_concat_space _ (· == slash) p _ (beq_self_eq_true slash)

theorem components_of_not_mem {p : List α} (hne : p ≠ []) (h : slash ∉ p) :
    components slash p = [p] := by
  refine words_word ⟨hne, fun x hx => ?_⟩
  rw [beq_eq_false_iff_ne]
  intro hxs
  exact h (hxs ▸ hx)

theorem ne_nil_of_mem_components {p c : List α} (h : c ∈ components slash p) : c ≠ [] :=
  (isWord_of_mem_words h).ne_nil

theorem not_mem_of_mem_components {p c : List α} (h : c ∈ components slash p) : slash ∉ c := by
  intro hs
  have := (isWord_of_mem_words h).noSpace slash hs
  rw [beq_self_eq_true] at this
  exact Bool.noConfusion this

theorem mem_of_mem_component {p c : List α} (h : c ∈ components slash p) {x : α} (hx : x ∈ c) :
    x ∈ p := mem_of_mem_words h hx

/-- Separators at the end of a path are none of its components. -/
theorem components_rdropWhile (p : List α) :
    components slash (p.rdropWhile (· == slash)) = components slash p := words_rdropWhile p

end

section

variable {dot : α}

/-- Neither the name of the directory itself nor that of the one above. -/
structure Descends (dot : α) (c : List α) : Prop where
  ne_dot : c ≠ [dot]
  ne_dotDot : c ≠ [dot, dot]

/-- A name without a dot descends, and so does one with anything else in it. -/
theorem Descends.of_mem {c : List α} {x : α} (hx : x ∈ c) (hne : x ≠ dot) : Descends dot c where
  ne_dot h := by
    rw [h, List.mem_singleton] at hx
    exact hne hx
  ne_dotDot h := by
    rw [h] at hx
    simp only [List.mem_cons, List.not_mem_nil, or_false, or_self] at hx
    exact hne hx

theorem Descends.of_not_mem {c : List α} (h : dot ∉ c) (hne : c ≠ []) : Descends dot c := by
  obtain ⟨x, hx⟩ := List.exists_mem_of_ne_nil c hne
  refine .of_mem hx fun hxd => h (hxd ▸ hx)

variable [DecidableEq α]

/-- Where one component leads from a directory. At the root, up leads nowhere. -/
def walk (dot : α) (dir : List (List α)) (c : List α) : List (List α) :=
  if c = [dot] then dir else if c = [dot, dot] then dir.dropLast else dir ++ [c]

/-- Where components lead from the root. -/
def normal (dot : α) (cs : List (List α)) : List (List α) := cs.foldl (walk dot) []

/-- **Components that descend lead further down** from wherever the others lead. -/
theorem normal_append {cs : List (List α)} (h : ∀ c ∈ cs, Descends dot c) (dir : List (List α)) :
    normal dot (dir ++ cs) = normal dot dir ++ cs := by
  induction cs generalizing dir with
  | nil => rw [List.append_nil, List.append_nil]
  | cons c cs ih =>
      have hc := h c (List.mem_cons_self ..)
      have hstep : normal dot (dir ++ [c]) = normal dot dir ++ [c] := by
        rw [normal, List.foldl_append]
        show walk dot _ c = _
        rw [walk, if_neg hc.ne_dot, if_neg hc.ne_dotDot]
        rfl
      rw [← List.singleton_append, ← List.append_assoc, ih (fun d hd => h d
        (List.mem_cons_of_mem _ hd)) (dir ++ [c]), hstep, List.append_assoc]

end

end Paths
