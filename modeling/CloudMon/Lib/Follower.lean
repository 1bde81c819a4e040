import Mathlib.Data.Finset.Basic
import Mathlib.Data.List.Basic

/-!
# Following a set from its notices

A source tells the members of a set that changes: now and then the whole set, and in
between who has gone. A follower adds what a whole set names and drops who has gone. It
never learns that a member is missing from a whole set it hears, so it depends on
hearing of the departure before.

`Truthful` is what the source owes it: no whole set leaves out a member that is still
believed in. A follower that has missed the beginning believes in fewer members, which
asks less of the source, so it does not matter when it starts to listen.

To miss something later on is another matter. A whole set that is missed is made up for by
the next one, a departure by nothing: whoever is believed in by mistake is one whose
departure was missed. Nor does a source that starts again, and is truthful only from then
on, make up for the departures it has missed itself.
-/

namespace Follower

variable {α : Type} [DecidableEq α]

inductive Notice (α : Type) where
  | gone (a : α)
  | present (members : Finset α)

/-- What a follower knows after one more notice. -/
def hear (known : Finset α) : Notice α → Finset α
  | .gone a => known.erase a
  | .present members => known ∪ members

/-- No whole set leaves out a member that a follower who knew `known` still believes in. -/
def Truthful (known : Finset α) : List (Notice α) → Prop
  | [] => True
  | .gone a :: later => Truthful (known.erase a) later
  | .present members :: later => known ⊆ members ∧ Truthful (known ∪ members) later

theorem truthful_append {known : Finset α} {a b : List (Notice α)} :
    Truthful known (a ++ b) ↔ Truthful known a ∧ Truthful (a.foldl hear known) b := by
  induction a generalizing known with
  | nil => exact ⟨fun h => ⟨trivial, h⟩, And.right⟩
  | cons notice a ih =>
      cases notice with
      | gone x => exact ih
      | present members =>
          rw [List.cons_append, Truthful, Truthful, ih, and_assoc]
          exact Iff.rfl

/-- Who believes in fewer members is misled less. -/
theorem Truthful.anti {known fewer : Finset α} {notices : List (Notice α)}
    (h : Truthful known notices) (hsub : fewer ⊆ known) : Truthful fewer notices := by
  induction notices generalizing known fewer with
  | nil => trivial
  | cons notice later ih =>
      cases notice with
      | gone a => exact ih h (Finset.erase_subset_erase a hsub)
      | present members =>
          exact ⟨hsub.trans h.1, ih h.2 (Finset.union_subset_union_left hsub)⟩

/-- Saying of some that they have gone. -/
theorem foldl_gone (known : Finset α) (left : List α) :
    (left.map Notice.gone).foldl hear known = known \ left.toFinset := by
  induction left generalizing known with
  | nil => simp
  | cons a left ih =>
      rw [List.map_cons, List.foldl_cons, ih, List.toFinset_cons]
      ext x
      simp only [hear, Finset.mem_sdiff, Finset.mem_erase, Finset.mem_insert]
      tauto

theorem truthful_gone (known : Finset α) (left : List α) :
    Truthful known (left.map Notice.gone) := by
  induction left generalizing known with
  | nil => trivial
  | cons a left ih => exact ih (known.erase a)

/-- **Departures, then the whole set.** Whoever is in neither was not believed in. -/
theorem truthful_gone_present {known members : Finset α} {left : List α}
    {later : List (Notice α)} (hall : ∀ a ∈ known, a ∈ left ∨ a ∈ members)
    (hlater : Truthful members later) :
    Truthful known (left.map Notice.gone ++ .present members :: later) := by
  have hsub : known \ left.toFinset ⊆ members := by
    intro a ha
    obtain ⟨hknown, hleft⟩ := Finset.mem_sdiff.mp ha
    rcases hall a hknown with h | h
    · exact absurd (List.mem_toFinset.mpr h) hleft
    · exact h
  refine truthful_append.mpr ⟨truthful_gone known left, ?_⟩
  rw [foldl_gone]
  refine ⟨hsub, ?_⟩
  rw [Finset.union_eq_right.mpr hsub]
  exact hlater

/-- **A follower knows the whole set when it hears it**, whenever it began to listen. -/
theorem foldl_present {known : Finset α} {missed heard later : List (Notice α)}
    {members : Finset α}
    (h : Truthful known (missed ++ heard ++ .present members :: later)) :
    (heard ++ [Notice.present members]).foldl hear ∅ = members := by
  rw [List.append_assoc, truthful_append] at h
  have hheard := h.2.anti (Finset.empty_subset _)
  rw [truthful_append] at hheard
  rw [List.foldl_append]
  exact Finset.union_eq_right.mpr hheard.2.1

/-! ## Missing some -/

/-- Who is said to have gone, in some notices. -/
def departures (notices : List (Notice α)) : List α :=
  notices.filterMap fun
    | .gone a => some a
    | .present _ => none

omit [DecidableEq α] in
theorem departures_gone (a : α) (later : List (Notice α)) :
    departures (.gone a :: later) = a :: departures later := rfl

/-- **Who is believed in by mistake** is one whose departure was missed. -/
theorem mem_foldl_hear {heard said : List (Notice α)} (h : heard.Sublist said)
    {known fewer : Finset α} {a : α} (hstart : a ∈ fewer → a ∈ known)
    (ha : a ∈ heard.foldl hear fewer) :
    a ∈ said.foldl hear known
      ∨ (departures heard).countP (· = a) < (departures said).countP (· = a) := by
  induction h generalizing known fewer with
  | slnil => exact Or.inl (hstart ha)
  | @cons heard said notice hsub ih =>
      -- said, and not heard
      cases notice with
      | present members =>
          exact ih (fun hmem => Finset.mem_union_left _ (hstart hmem)) ha
      | gone b =>
          by_cases hb : b = a
          · refine Or.inr ?_
            rw [departures_gone, List.countP_cons_of_pos (by simpa using hb)]
            exact Nat.lt_succ_of_le (hsub.filterMap _).countP_le
          · rw [departures_gone, List.countP_cons_of_neg (by simpa using hb)]
            exact ih (fun hmem => Finset.mem_erase.mpr ⟨Ne.symm hb, hstart hmem⟩) ha
  | @cons_cons heard said notice hsub ih =>
      cases notice with
      | present members =>
          refine ih (fun hmem => ?_) ha
          exact Finset.mem_union.mpr ((Finset.mem_union.mp hmem).imp_left hstart)
      | gone b =>
          rw [departures_gone, departures_gone, List.countP_cons, List.countP_cons]
          refine (ih (fun hmem => ?_) ha).imp_right fun hless => Nat.add_lt_add_right hless _
          obtain ⟨hne, hmem⟩ := Finset.mem_erase.mp hmem
          exact Finset.mem_erase.mpr ⟨hne, hstart hmem⟩

/-- Who knows of more members in the beginning knows of more in the end. -/
theorem mem_foldl_hear_mono {notices : List (Notice α)} {known fewer : Finset α} {a : α}
    (hstart : a ∈ fewer → a ∈ known) (ha : a ∈ notices.foldl hear fewer) :
    a ∈ notices.foldl hear known :=
  (mem_foldl_hear (List.Sublist.refl notices) hstart ha).resolve_right (Nat.lt_irrefl _)

/-! ## A source that starts again -/

section Lives

variable {lives : List (List (Notice α))} {missed said later heard : List (Notice α)}
  {members : Finset α} {a : α}

/-- Who is believed in wrongly was believed in when an earlier life of the source ended. -/
theorem mem_or_of_lives (htrue : ∀ life ∈ lives, Truthful ∅ life)
    (h : lives.flatten = said ++ .present members :: later) (ha : a ∈ said.foldl hear ∅) :
    a ∈ members ∨ ∃ life ∈ lives.dropLast, a ∈ life.foldl hear ∅ := by
  induction lives generalizing said with
  | nil => exact absurd h.symm (List.append_ne_nil_of_right_ne_nil _ (List.cons_ne_nil _ _))
  | cons life lives ih =>
      have hsplit : (∃ more, said = life ++ more
            ∧ lives.flatten = more ++ Notice.present members :: later)
          ∨ ∃ rest, life = said ++ Notice.present members :: rest := by
        rw [List.flatten_cons] at h
        rcases List.append_eq_append_iff.mp h with ⟨more, hsaid, hrest⟩ | ⟨more, rfl, hrest⟩
        · exact Or.inl ⟨more, hsaid, hrest⟩
        · cases more with
          | nil => exact Or.inl ⟨[], by simp, hrest.symm⟩
          | cons notice rest => exact Or.inr ⟨rest, by rw [(List.cons.inj hrest).1]⟩
      rcases hsplit with ⟨more, rfl, hrest⟩ | ⟨rest, rfl⟩
      · -- the whole set comes in a later life
        have hne : lives ≠ [] := by
          rintro rfl
          exact absurd hrest.symm (List.append_ne_nil_of_right_ne_nil _ (List.cons_ne_nil _ _))
        rw [List.dropLast_cons_of_ne_nil hne]
        rw [List.foldl_append] at ha
        by_cases hlife : a ∈ life.foldl hear ∅
        · exact Or.inr ⟨life, List.mem_cons_self .., hlife⟩
        · refine (ih (fun l hl => htrue l (List.mem_cons_of_mem _ hl)) hrest
            (mem_foldl_hear_mono (fun hmem => absurd hmem hlife) ha)).imp_right ?_
          rintro ⟨l, hl, hmem⟩
          exact ⟨l, List.mem_cons_of_mem _ hl, hmem⟩
      · exact Or.inl ((truthful_append.mp (htrue _ (List.mem_cons_self ..))).2.1 ha)

/--
**A follower that misses some**, of a source that starts again now and then, still knows
every member of a whole set it hears. Who else it believes in has left more often than it
has heard, or was still there when an earlier life of the source ended.
-/
theorem foldl_present_lives (htrue : ∀ life ∈ lives, Truthful ∅ life)
    (h : lives.flatten = missed ++ said ++ .present members :: later)
    (hheard : heard.Sublist said) :
    members ⊆ (heard ++ [Notice.present members]).foldl hear ∅
      ∧ ∀ a ∈ (heard ++ [Notice.present members]).foldl hear ∅, a ∉ members →
        (departures heard).countP (· = a) < (departures said).countP (· = a)
          ∨ ∃ life ∈ lives.dropLast, a ∈ life.foldl hear ∅ := by
  rw [List.foldl_append]
  refine ⟨Finset.subset_union_right, fun a ha hout => ?_⟩
  rcases Finset.mem_union.mp ha with ha | ha
  · rcases mem_foldl_hear hheard (fun hmem => absurd hmem (Finset.notMem_empty a)) ha with
      hsaid | hless
    · refine Or.inr ((mem_or_of_lives htrue h ?_).resolve_left hout)
      rw [List.foldl_append]
      exact mem_foldl_hear_mono (fun hmem => absurd hmem (Finset.notMem_empty a)) hsaid
    · exact Or.inl hless
  · exact absurd ha hout

end Lives

end Follower
