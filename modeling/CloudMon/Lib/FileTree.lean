import Mathlib.Data.List.Basic

/-!
# Trees of files

A directory is a list of names, each with a file or another directory behind it, in
the order in which it lists them. Nothing says what that order is.

`walk` visits the directories of a tree, each before the ones in it, under paths
made on the way by `join`. In which order it comes by the files depends on the
tree; which files it comes by does not: those the tree has, each under its own
names, joined one after the other to the top.
-/

inductive FileTree (ν : Type) where
  | file
  | dir (entries : List (ν × FileTree ν))

namespace FileTree

variable {ν π : Type}

/-- What holds of files, and of a directory when it holds of all that is in it. -/
@[elab_as_elim]
theorem ind {motive : FileTree ν → Prop} (file : motive .file)
    (dir : ∀ es, (∀ e ∈ es, motive e.2) → motive (.dir es)) : ∀ t, motive t
  | .file => file
  | .dir es => dir es fun e _ => ind file dir e.2
termination_by t => sizeOf t
decreasing_by
  rename_i he
  have hentry := List.sizeOf_lt_of_mem he
  have hpair : sizeOf e = 1 + sizeOf e.1 + sizeOf e.2 := by cases e; rfl
  rw [FileTree.dir.sizeOf_spec]
  omega

def isFile : FileTree ν → Bool
  | .file => true
  | .dir _ => false

/-- There is a file behind these names. -/
inductive HasFile : FileTree ν → List ν → Prop where
  | nil : HasFile .file []
  | cons {es : List (ν × FileTree ν)} {e : ν × FileTree ν} {ns : List ν} :
      e ∈ es → HasFile e.2 ns → HasFile (.dir es) (e.1 :: ns)

variable (join : π → ν → π)

mutual

/-- The directories of a tree, with their paths and what they list, each before those in it. -/
def walk (top : π) : FileTree ν → List (π × List (ν × FileTree ν))
  | .file => []
  | .dir es => (top, es) :: walkEach top es
termination_by structural t => t

def walkEach (top : π) : List (ν × FileTree ν) → List (π × List (ν × FileTree ν))
  | [] => []
  | (n, t) :: es => walk (join top n) t ++ walkEach top es
termination_by structural es => es

end

theorem walkEach_eq (top : π) (es : List (ν × FileTree ν)) :
    walkEach join top es = es.flatMap fun e => walk join (join top e.1) e.2 := by
  induction es with
  | nil => rfl
  | cons e es ih => rw [walkEach, ih, List.flatMap_cons]

/-- The files a walk comes by. -/
def files (top : π) (t : FileTree ν) : List π :=
  (walk join top t).flatMap fun d =>
    d.2.filterMap fun e => if e.2.isFile then some (join d.1 e.1) else none

theorem files_dir (top : π) (es : List (ν × FileTree ν)) :
    files join top (.dir es)
      = (es.filterMap fun e => if e.2.isFile then some (join top e.1) else none)
        ++ es.flatMap fun e => files join (join top e.1) e.2 := by
  rw [files, walk, List.flatMap_cons, walkEach_eq, List.flatMap_assoc]
  rfl

theorem hasFile_nil {t : FileTree ν} : HasFile t [] ↔ t.isFile = true := by
  cases t with
  | file => exact iff_of_true .nil rfl
  | dir es => exact iff_of_false nofun Bool.false_ne_true

/-- **A walk comes by exactly the files the tree has.** -/
theorem mem_files {t : FileTree ν} {top p : π} :
    p ∈ files join top t ↔ ∃ ns, ns ≠ [] ∧ HasFile t ns ∧ p = ns.foldl join top := by
  induction t using ind generalizing top with
  | file =>
      refine iff_of_false (by simp [files, walk]) ?_
      intro h
      obtain ⟨ns, hne, hhas, _⟩ := h
      cases hhas
      exact hne rfl
  | dir es ih =>
      rw [files_dir, List.mem_append, List.mem_filterMap, List.mem_flatMap]
      refine ⟨?_, ?_⟩
      · intro h
        rcases h with ⟨e, he, hp⟩ | ⟨e, he, hp⟩
        · split at hp
          · rename_i hfile
            exact ⟨[e.1], List.cons_ne_nil _ _, .cons he (hasFile_nil.mpr hfile),
              (Option.some.inj hp).symm⟩
          · cases hp
        · obtain ⟨ns, _, hhas, rfl⟩ := (ih e he).mp hp
          exact ⟨e.1 :: ns, List.cons_ne_nil _ _, .cons he hhas, rfl⟩
      · intro h
        obtain ⟨ns, hne, hhas, rfl⟩ := h
        cases hhas with
        | @cons _ e ns he hhas =>
            by_cases hns : ns = []
            · subst hns
              exact Or.inl ⟨e, he, by rw [if_pos (hasFile_nil.mp hhas)]; rfl⟩
            · exact Or.inr ⟨e, he, (ih e he).mpr ⟨ns, hns, hhas, rfl⟩⟩

/-- The names behind which a directory has files. -/
def names (t : FileTree ν) : List (List ν) := files (fun ns n => ns ++ [n]) [] t

theorem mem_names {es : List (ν × FileTree ν)} {ns : List ν} :
    ns ∈ names (.dir es) ↔ HasFile (.dir es) ns := by
  have hfold : ∀ (ns top : List ν), ns.foldl (fun ns n => ns ++ [n]) top = top ++ ns := by
    intro ns
    induction ns with
    | nil => simp
    | cons n ns ih => intro top; rw [List.foldl_cons, ih, List.append_assoc]; rfl
  rw [names, mem_files]
  refine ⟨?_, ?_⟩
  · intro h
    obtain ⟨ns', _, hhas, rfl⟩ := h
    rw [hfold, List.nil_append]
    exact hhas
  · intro h
    refine ⟨ns, ?_, h, by rw [hfold, List.nil_append]⟩
    intro hnil
    rw [hnil, hasFile_nil] at h
    cases h

end FileTree
