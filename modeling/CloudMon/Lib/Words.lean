import Mathlib.Data.List.DropRight

/-!
# Words and fields

Text is cut in two ways. `words` cuts at runs of white space and never yields an
empty piece; `List.splitOn` cuts at every separator and yields the empty ones too.
Joining with one separator undoes the first on lists of proper words, and the
second on any list of pieces without the separator.

Cutting at one separator and joining with another only exchanges the separators,
so nothing is lost as long as the new one was not there before. That, and the last
separator being where it is, is what makes a path built from such pieces
determine them.

A text without a separator is part of another when it is part of one of the pieces.
-/

namespace Words

variable {α : Type}

/-- The maximal runs of `l` outside `isSpace`. -/
def words (isSpace : α → Bool) (l : List α) : List (List α) :=
  (l.splitOnP isSpace).filter fun w => !w.isEmpty

/-- What a cut at white space can yield. -/
structure IsWord (isSpace : α → Bool) (w : List α) : Prop where
  ne_nil : w ≠ []
  noSpace : ∀ x ∈ w, isSpace x = false

section

variable {isSpace : α → Bool} {w : List α}

theorem words_word (hw : IsWord isSpace w) : words isSpace w = [w] := by
  rw [words, List.splitOnP_eq_singleton hw.noSpace, List.filter_cons_of_pos (by simp [hw.ne_nil])]
  rfl

theorem words_append_cons (hw : IsWord isSpace w) {s : α} (hs : isSpace s = true) (rest : List α) :
    words isSpace (w ++ s :: rest) = w :: words isSpace rest := by
  rw [words, List.splitOnP_append_cons_of_forall_mem hw.noSpace s hs,
    List.filter_cons_of_pos (by simp [hw.ne_nil])]
  rfl

/-- **Words joined by a space come apart again.** -/
theorem words_intercalate {s : α} (hs : isSpace s = true) :
    ∀ {ws : List (List α)}, (∀ w ∈ ws, IsWord isSpace w) → words isSpace ([s].intercalate ws) = ws
  | [], _ => rfl
  | [w], h => by
      rw [List.intercalate_singleton]
      exact words_word (h w (List.mem_singleton_self w))
  | w :: v :: ws, h => by
      have hw : IsWord isSpace w := h w (List.mem_cons_self ..)
      have hrest : ∀ x ∈ v :: ws, IsWord isSpace x := fun x hx => h x (List.mem_cons_of_mem _ hx)
      rw [List.intercalate_cons_cons, List.append_assoc, List.singleton_append,
        words_append_cons hw hs, words_intercalate hs hrest]

end

/-! ## Words of any text -/

section

variable {isSpace : α → Bool}

/-- What lies between two cuts is free of cuts, and part of the text. -/
theorem mem_splitOnP {l w : List α} (h : w ∈ l.splitOnP isSpace) :
    ∀ x ∈ w, isSpace x = false ∧ x ∈ l := by
  induction l generalizing w with
  | nil =>
      rw [List.splitOnP_nil, List.mem_singleton] at h
      simp [h]
  | cons y l ih =>
      have hrest : ∀ w ∈ l.splitOnP isSpace, ∀ x ∈ w, isSpace x = false ∧ x ∈ y :: l :=
        fun w hw x hx => ⟨(ih hw x hx).1, List.mem_cons_of_mem _ (ih hw x hx).2⟩
      rw [List.splitOnP_cons_eq_if_modifyHead] at h
      split at h
      · rcases List.mem_cons.mp h with rfl | h
        · simp
        · exact hrest w h
      · rename_i hy
        obtain ⟨v, vs, hvs⟩ := List.exists_cons_of_ne_nil (List.splitOnP_ne_nil isSpace l)
        rw [hvs] at h hrest
        rcases List.mem_cons.mp h with rfl | h
        · intro x hx
          rcases List.mem_cons.mp hx with rfl | hx
          · exact ⟨by simpa using hy, List.mem_cons_self ..⟩
          · exact hrest v (List.mem_cons_self ..) x hx
        · exact hrest w (List.mem_cons_of_mem _ h)

theorem isWord_of_mem_words {l w : List α} (h : w ∈ words isSpace l) : IsWord isSpace w := by
  rw [words, List.mem_filter] at h
  exact ⟨by simpa using h.2, fun x hx => (mem_splitOnP h.1 x hx).1⟩

theorem mem_of_mem_words {l w : List α} (h : w ∈ words isSpace l) {x : α} (hx : x ∈ w) : x ∈ l :=
  (mem_splitOnP (List.mem_filter.mp h).1 x hx).2

/-- White space in the middle separates whatever is around it. -/
theorem words_append_space (l : List α) {s : α} (hs : isSpace s = true) (r : List α) :
    words isSpace (l ++ s :: r) = words isSpace l ++ words isSpace r := by
  rw [words, List.splitOnP_append_cons _ _ hs, List.filter_append]
  rfl

theorem words_cons_space {s : α} (hs : isSpace s = true) (l : List α) :
    words isSpace (s :: l) = words isSpace l := words_append_space [] hs l

theorem words_concat_space (l : List α) {s : α} (hs : isSpace s = true) :
    words isSpace (l ++ [s]) = words isSpace l := by
  rw [words_append_space l hs]
  exact List.append_nil _

/-- White space at the ends is none of the words. -/
theorem words_dropWhile (l : List α) : words isSpace (l.dropWhile isSpace) = words isSpace l := by
  induction l with
  | nil => rfl
  | cons x l ih =>
      by_cases hx : isSpace x = true
      · rw [List.dropWhile_cons_of_pos hx, ih, words_cons_space hx]
      · rw [List.dropWhile_cons_of_neg hx]

theorem words_rdropWhile (l : List α) : words isSpace (l.rdropWhile isSpace) = words isSpace l := by
  induction l using List.reverseRecOn with
  | nil => rfl
  | append_singleton l x ih =>
      rw [List.rdropWhile_concat]
      split
      · rename_i hx
        rw [ih, words_concat_space l hx]
      · rfl

/-- The first word of a text that starts with one. -/
theorem words_word_append {w : List α} (hw : IsWord isSpace w) {r : List α}
    (hr : ∀ x ∈ r.head?, isSpace x = true) : words isSpace (w ++ r) = w :: words isSpace r := by
  cases r with
  | nil => rw [List.append_nil, words_word hw]; rfl
  | cons s r =>
      have hs := hr s rfl
      rw [words_append_cons hw hs, words_cons_space hs]

end

section

variable [DecidableEq α] {a b : α}

/-- Every `a` exchanged for a `b`. -/
def replace (a b : α) (l : List α) : List α := l.map fun x => if x = a then b else x

@[simp] theorem replace_append (l r : List α) :
    replace a b (l ++ r) = replace a b l ++ replace a b r := List.map_append

@[simp] theorem replace_cons_self (l : List α) : replace a b (a :: l) = b :: replace a b l := by
  simp [replace]

/-- Nothing but the new separator comes in. -/
theorem mem_of_mem_replace {l : List α} {x : α} (h : x ∈ replace a b l) (hx : x ≠ b) : x ∈ l := by
  obtain ⟨y, hy, heq⟩ := List.mem_map.mp h
  split at heq
  · exact absurd heq.symm hx
  · exact heq ▸ hy

theorem replace_of_not_mem {l : List α} (h : a ∉ l) : replace a b l = l := by
  unfold replace
  refine (List.map_congr_left fun x hx => ?_).trans (List.map_id l)
  rw [if_neg, id]
  intro hxa
  exact h (hxa ▸ hx)

/-- **Cutting at one separator and joining with another** exchanges the two. -/
theorem intercalate_splitOn_replace (l : List α) :
    [b].intercalate (l.splitOn a) = replace a b l := by
  induction l with
  | nil => rfl
  | cons x l ih =>
      rw [List.splitOn_cons_eq_if_modifyHead, replace, List.map_cons]
      by_cases hx : x = a
      · rw [if_pos (by simpa using hx), if_pos hx,
          List.intercalate_cons_of_ne_nil (List.splitOn_ne_nil a l), ih]
        rfl
      · rw [if_neg (by simpa using hx), if_neg hx]
        change _ = x :: replace a b l
        obtain ⟨w, ws, hws⟩ := List.exists_cons_of_ne_nil (List.splitOn_ne_nil a l)
        rw [hws] at ih ⊢
        rw [← ih, List.modifyHead_cons, List.intercalate_cons_cons_left]

omit [DecidableEq α] in
/-- One more piece at the end. -/
theorem intercalate_concat {ls : List (List α)} (h : ls ≠ []) (s : α) (x : List α) :
    [s].intercalate (ls ++ [x]) = [s].intercalate ls ++ s :: x := by
  induction ls with
  | nil => exact absurd rfl h
  | cons l ls ih =>
      rw [List.cons_append, List.intercalate_cons_of_ne_nil (by simp)]
      cases ls with
      | nil => simp
      | cons m ms =>
          rw [ih (List.cons_ne_nil _ _), List.intercalate_cons_cons]
          simp only [List.append_assoc]

/-- The exchange can be undone where the new separator was not there before. -/
theorem replace_replace {l : List α} (h : b ∉ l) : replace b a (replace a b l) = l := by
  unfold replace
  rw [List.map_map]
  refine (List.map_congr_left fun x hx => ?_).trans (List.map_id l)
  have hxb : x ≠ b := fun hxb => h (hxb ▸ hx)
  by_cases hxa : x = a
  · simp [hxa]
  · simp [hxa, hxb]

theorem replace_inj {l l' : List α} (h : b ∉ l) (h' : b ∉ l')
    (heq : replace a b l = replace a b l') : l = l' := by
  rw [← replace_replace (a := a) h, heq, replace_replace h']

/-- **The last separator is where it is**: two texts cut there agree in both pieces. -/
theorem append_cons_inj_of_last {p p' r r' : List α} (hr : a ∉ r) (hr' : a ∉ r')
    (heq : p ++ a :: r = p' ++ a :: r') : p = p' ∧ r = r' := by
  have hcut : p.splitOn a ++ [r] = p'.splitOn a ++ [r'] := by
    rw [← List.splitOn_eq_singleton hr, ← List.splitOn_eq_singleton hr',
      ← List.splitOn_append_cons_self, ← List.splitOn_append_cons_self, heq]
  obtain ⟨hp, hlast⟩ := List.append_inj' hcut rfl
  refine ⟨?_, List.singleton_injective hlast⟩
  calc p = [a].intercalate (p.splitOn a) := (List.intercalate_splitOn a).symm
    _ = [a].intercalate (p'.splitOn a) := by rw [hp]
    _ = p' := List.intercalate_splitOn a

end

/-! ## Parts of a text -/

section

variable {m l r : List α} {a : α}

/-- **A part without the separator** is a part of one side. -/
theorem infix_append_cons_iff (h : a ∉ m) : m <:+: l ++ a :: r ↔ m <:+: l ∨ m <:+: r := by
  rw [List.infix_append_iff]
  refine ⟨?_, ?_⟩
  · intro hm
    rcases hm with hl | hr | ⟨m₁, m₂, rfl, hsuffix, hpre⟩
    · exact Or.inl hl
    · rcases List.infix_cons_iff.mp hr with hpre | hr
      · rcases List.prefix_cons_iff.mp hpre with rfl | ⟨t, rfl, -⟩
        · exact Or.inl List.nil_infix
        · exact absurd (List.mem_cons_self ..) h
      · exact Or.inr hr
    · -- what lies across the separator would have to have it in it
      rcases List.prefix_cons_iff.mp hpre with rfl | ⟨t, rfl, -⟩
      · rw [List.append_nil]
        exact Or.inl hsuffix.isInfix
      · exact absurd (List.mem_append_right _ (List.mem_cons_self ..)) h
  · intro hm
    rcases hm with hl | hr
    · exact Or.inl hl
    · exact Or.inr (Or.inl (List.infix_cons hr))

theorem infix_concat_iff_of_not_mem (h : a ∉ m) : m <:+: l ++ [a] ↔ m <:+: l := by
  rw [infix_append_cons_iff h, List.infix_nil, or_iff_left_iff_imp]
  rintro rfl
  exact List.nil_infix

variable [DecidableEq α] {b : α}

/-- Exchanging separators neither makes nor breaks a part without them. -/
theorem infix_replace_iff (ha : a ∉ m) (hb : b ∉ m) : m <:+: replace a b l ↔ m <:+: l := by
  refine ⟨?_, ?_⟩
  · intro h
    obtain ⟨k, hk, heq⟩ := List.infix_map_iff.mp h
    have hak : a ∉ k := by
      intro hmem
      refine hb (heq ▸ List.mem_map.mpr ⟨a, hmem, if_pos rfl⟩)
    have hmk : m = k := heq.trans (replace_of_not_mem hak)
    exact hmk ▸ hk
  · intro h
    exact List.infix_map_iff.mpr ⟨m, h, (replace_of_not_mem ha).symm⟩

/-- Where a search left off: so many letters are part of what it has found. -/
def replaceFrom (old new : List α) : Nat → List α → List α
  | _, [] => []
  | skip + 1, _ :: l => replaceFrom old new skip l
  | 0, x :: l =>
    if old.isPrefixOf (x :: l) then new ++ replaceFrom old new (old.length - 1) l
    else x :: replaceFrom old new 0 l

/-- Every `old` exchanged for `new`, from left to right; `old` is not empty. -/
def replaceAll (old new l : List α) : List α := replaceFrom old new 0 l

theorem replaceFrom_length (old new l : List α) : replaceFrom old new l.length l = [] := by
  induction l with
  | nil => rfl
  | cons x l ih => exact ih

/-- What stands only at the end is exchanged there. -/
theorem replaceAll_append {old new : List α} (h : a ∉ m) :
    replaceAll (a :: old) new (m ++ a :: old) = m ++ new := by
  unfold replaceAll
  induction m with
  | nil =>
      have hself : (a :: old).isPrefixOf (a :: old) = true :=
        List.isPrefixOf_iff_prefix.mpr List.prefix_rfl
      rw [List.nil_append, replaceFrom, if_pos hself, List.length_cons, Nat.add_sub_cancel,
        replaceFrom_length, List.append_nil, List.nil_append]
  | cons x m ih =>
      have hx : ¬ (a :: old).isPrefixOf (x :: (m ++ a :: old)) = true := by
        rw [List.isPrefixOf_iff_prefix, List.cons_prefix_cons]
        rintro ⟨rfl, -⟩
        exact h (List.mem_cons_self ..)
      rw [List.cons_append, replaceFrom, if_neg hx, List.cons_append,
        ih fun hm => h (List.mem_cons_of_mem _ hm)]

end

end Words
