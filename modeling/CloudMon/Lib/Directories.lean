import Mathlib.Data.List.Basic
import Mathlib.Data.Option.Basic

/-!
# Directories, names and links

A file system is a graph. Directories are numbered; each holds named entries, which are
other directories, symbolic links, or files of whatever other kind. A path is walked
from the root or from the directory somebody works in, and a link on the way puts the
components of its target in front of what is left. How many links a walk may follow is
limited, so every walk ends.

A new directory is empty and its number has never been used. What could be walked before
it was made is walked the same way afterwards; that is all most proofs need of it.
-/

namespace Directories

inductive Comp (ν : Type) where
  /-- `.` -/
  | here
  /-- `..` -/
  | up
  | name (n : ν)
deriving DecidableEq

structure Path (ν : Type) where
  absolute : Bool
  comps : List (Comp ν)

inductive Entry (ν : Type) where
  | directory (d : Nat)
  | link (target : Path ν)
  | file

structure FileSystem (ν : Type) where
  /-- How many directories there have been. -/
  count : Nat
  entry : Nat → ν → Option (Entry ν)
  parent : Nat → Nat
  root : Nat
  /-- Where a path that is not absolute begins. -/
  cwd : Nat
  entry_lt : ∀ {d n e}, entry d n = some e → d < count
  directory_lt : ∀ {d n d'}, entry d n = some (.directory d') → d' < count
  parent_lt : ∀ {d}, d < count → parent d < count
  root_lt : root < count
  cwd_lt : cwd < count

variable {ν : Type}

namespace FileSystem

variable (fs : FileSystem ν)

/-- Where a path begins that is read in directory `d`. -/
def origin (d : Nat) (p : Path ν) : Nat := if p.absolute then fs.root else d

/-- The directory some components lead to, and how many links may still be followed. -/
def walk : Nat → Nat → List (Comp ν) → Option (Nat × Nat)
  | links, d, [] => some (links, d)
  | links, d, .here :: cs => walk links d cs
  | links, d, .up :: cs => walk links (fs.parent d) cs
  | links, d, .name n :: cs =>
    match fs.entry d n with
    | some (.directory d') => walk links d' cs
    | some (.link target) =>
      match links with
      | 0 => none
      | links + 1 => walk links (fs.origin d target) (target.comps ++ cs)
    | some .file => none
    | none => none
termination_by links _ cs => (links, cs.length)

/-- How many links a path may lead through. -/
def maxLinks : Nat := 40

/-- The directory a path leads to. -/
def resolve (p : Path ν) : Option Nat :=
  (fs.walk maxLinks (fs.origin fs.cwd p) p.comps).map Prod.snd

/-- The directory a path's last name is looked up in, and that name. -/
def place (p : Path ν) : Option (Nat × ν) :=
  match p.comps.getLast? with
  | some (.name n) =>
    (fs.walk maxLinks (fs.origin fs.cwd p) p.comps.dropLast).map fun r => (r.2, n)
  | _ => none

variable {fs : FileSystem ν} {links d : Nat} {cs : List (Comp ν)} {p : Path ν}

theorem origin_lt (h : d < fs.count) : fs.origin d p < fs.count := by
  unfold origin
  split
  · exact fs.root_lt
  · exact h

theorem walk_lt {r : Nat × Nat} (h : fs.walk links d cs = some r) (hd : d < fs.count) :
    r.2 < fs.count := by
  fun_induction fs.walk links d cs with
  | case1 => exact Option.some.inj h ▸ hd
  | case2 links d cs ih => exact ih h hd
  | case3 links d cs ih => exact ih h (fs.parent_lt hd)
  | case4 links d n cs d' hentry ih => exact ih h (fs.directory_lt hentry)
  | case5 => cases h
  | case6 d n cs target hentry links ih => exact ih h (origin_lt hd)
  | case7 => cases h
  | case8 => cases h

/-- **A walk is made in any two parts.** -/
theorem walk_append (cs' : List (Comp ν)) :
    fs.walk links d (cs ++ cs') = (fs.walk links d cs).bind fun r => fs.walk r.1 r.2 cs' := by
  fun_induction fs.walk links d cs with
  | case1 => rfl
  | case2 links d cs ih => rw [List.cons_append, walk, ih]
  | case3 links d cs ih => rw [List.cons_append, walk, ih]
  | case4 links d n cs d' hentry ih => rw [List.cons_append, walk, hentry]; exact ih
  | case5 d n cs target hentry => rw [List.cons_append, walk, hentry]; rfl
  | case6 d n cs target hentry links ih =>
      rw [List.cons_append, walk, hentry]
      show fs.walk links (fs.origin d target) (target.comps ++ (cs ++ cs')) = _
      rw [← List.append_assoc, ih]
  | case7 links d n cs hentry => rw [List.cons_append, walk, hentry]; rfl
  | case8 links d n cs hentry => rw [List.cons_append, walk, hentry]; rfl

theorem place_lt {r : Nat × ν} (h : fs.place p = some r) : r.1 < fs.count := by
  unfold place at h
  split at h
  · obtain ⟨r', hwalk, rfl⟩ := Option.map_eq_some_iff.mp h
    exact walk_lt hwalk (origin_lt fs.cwd_lt)
  · cases h

/-! ## A directory more -/

/-- What is there stays there. -/
structure Extends (fs fs' : FileSystem ν) : Prop where
  count : fs.count ≤ fs'.count
  entry : ∀ {d n e}, fs.entry d n = some e → fs'.entry d n = some e
  parent : ∀ {d}, d < fs.count → fs'.parent d = fs.parent d
  root : fs'.root = fs.root
  cwd : fs'.cwd = fs.cwd

theorem Extends.refl (fs : FileSystem ν) : Extends fs fs :=
  ⟨Nat.le_refl _, fun h => h, fun _ => rfl, rfl, rfl⟩

theorem Extends.trans {fs₁ fs₂ fs₃ : FileSystem ν} (h : Extends fs₁ fs₂) (h' : Extends fs₂ fs₃) :
    Extends fs₁ fs₃ where
  count := Nat.le_trans h.count h'.count
  entry he := h'.entry (h.entry he)
  parent hd := (h'.parent (Nat.lt_of_lt_of_le hd h.count)).trans (h.parent hd)
  root := h'.root.trans h.root
  cwd := h'.cwd.trans h.cwd

theorem Extends.origin {fs' : FileSystem ν} (h : Extends fs fs') (d : Nat) (p : Path ν) :
    fs'.origin d p = fs.origin d p := by
  unfold FileSystem.origin
  rw [h.root]

/-- **Every walk is still possible**, and leads to the same place. -/
theorem Extends.walk {fs' : FileSystem ν} (h : Extends fs fs') {r : Nat × Nat}
    (hd : d < fs.count) (hwalk : fs.walk links d cs = some r) :
    fs'.walk links d cs = some r := by
  fun_induction fs.walk links d cs with
  | case1 => rw [FileSystem.walk]; exact hwalk
  | case2 links d cs ih => rw [FileSystem.walk]; exact ih hd hwalk
  | case3 links d cs ih =>
      rw [FileSystem.walk, h.parent hd]
      exact ih (fs.parent_lt hd) hwalk
  | case4 links d n cs d' hentry ih =>
      rw [FileSystem.walk, h.entry hentry]
      exact ih (fs.directory_lt hentry) hwalk
  | case5 => cases hwalk
  | case6 d n cs target hentry links ih =>
      rw [FileSystem.walk, h.entry hentry]
      show fs'.walk links (fs'.origin d target) (target.comps ++ cs) = _
      rw [h.origin]
      exact ih (origin_lt hd) hwalk
  | case7 => cases hwalk
  | case8 => cases hwalk

theorem Extends.resolve {fs' : FileSystem ν} (h : Extends fs fs') (hp : fs.resolve p = some d) :
    fs'.resolve p = some d := by
  obtain ⟨r, hwalk, rfl⟩ := Option.map_eq_some_iff.mp hp
  unfold FileSystem.resolve
  rw [h.cwd, h.origin, h.walk (origin_lt fs.cwd_lt) hwalk, Option.map_some]

theorem Extends.place {fs' : FileSystem ν} (h : Extends fs fs') {r : Nat × ν}
    (hp : fs.place p = some r) : fs'.place p = some r := by
  unfold FileSystem.place at hp ⊢
  split at hp
  · obtain ⟨r', hwalk, rfl⟩ := Option.map_eq_some_iff.mp hp
    rw [h.cwd, h.origin, h.walk (origin_lt fs.cwd_lt) hwalk, Option.map_some]
  · cases hp

/-- A name in a directory that a path leads to. -/
theorem place_below {absolute : Bool} {n : ν} (hp : fs.resolve ⟨absolute, cs⟩ = some d) :
    fs.place ⟨absolute, cs ++ [.name n]⟩ = some (d, n) := by
  obtain ⟨r, hwalk, rfl⟩ := Option.map_eq_some_iff.mp hp
  unfold place
  dsimp only
  rw [List.getLast?_concat, List.dropLast_concat]
  exact Option.map_eq_some_iff.mpr ⟨r, hwalk, rfl⟩

/-- No path goes through a name that is not there. -/
theorem resolve_below {absolute : Bool} {n : ν} (hp : fs.resolve ⟨absolute, cs⟩ = some d)
    (hfree : fs.entry d n = none) : fs.resolve ⟨absolute, cs ++ [.name n]⟩ = none := by
  obtain ⟨r, hwalk, rfl⟩ := Option.map_eq_some_iff.mp hp
  have hnone : fs.walk r.1 r.2 [.name n] = none := by
    rw [walk, hfree]
  unfold resolve
  dsimp only
  rw [walk_append]
  exact hwalk.symm ▸ (congrArg _ hnone)

variable [DecidableEq ν]

/-- A new directory, named `n` in `d`. -/
def add (fs : FileSystem ν) (d : Nat) (n : ν) (hd : d < fs.count) : FileSystem ν where
  count := fs.count + 1
  entry d' n' := if d' = d ∧ n' = n then some (.directory fs.count) else fs.entry d' n'
  parent := Function.update fs.parent fs.count d
  root := fs.root
  cwd := fs.cwd
  entry_lt {d' n' e} h := by
    split at h
    · rename_i heq
      exact heq.1 ▸ Nat.lt_succ_of_lt hd
    · exact Nat.lt_succ_of_lt (fs.entry_lt h)
  directory_lt {d' n' d''} h := by
    split at h
    · cases h
      exact Nat.lt_succ_self _
    · exact Nat.lt_succ_of_lt (fs.directory_lt h)
  parent_lt {d'} h := by
    rcases eq_or_ne d' fs.count with rfl | hne
    · rw [Function.update_self]
      exact Nat.lt_succ_of_lt hd
    · rw [Function.update_of_ne hne]
      exact Nat.lt_succ_of_lt (fs.parent_lt (by omega))
  root_lt := Nat.lt_succ_of_lt fs.root_lt
  cwd_lt := Nat.lt_succ_of_lt fs.cwd_lt

/-- `mkdir`: it fails where the directory above is none, and where the name exists. -/
def mkdir (fs : FileSystem ν) (p : Path ν) : Option (FileSystem ν) :=
  match h : fs.place p with
  | some (d, n) => if fs.entry d n = none then some (fs.add d n (place_lt h)) else none
  | none => none

theorem add_entry_self {n : ν} (hd : d < fs.count) :
    (fs.add d n hd).entry d n = some (.directory fs.count) := if_pos ⟨rfl, rfl⟩

theorem add_entry_of_ne {d' : Nat} {n n' : ν} (hd : d < fs.count) (hne : ¬ (d' = d ∧ n' = n)) :
    (fs.add d n hd).entry d' n' = fs.entry d' n' := if_neg hne

theorem add_extends {n : ν} (hd : d < fs.count) (hfree : fs.entry d n = none) :
    Extends fs (fs.add d n hd) where
  count := Nat.le_succ _
  entry {d' n' e} he := by
    refine (add_entry_of_ne hd ?_).trans he
    rintro ⟨rfl, rfl⟩
    rw [hfree] at he
    cases he
  parent hd' := Function.update_of_ne (Nat.ne_of_lt hd') _ _
  root := rfl
  cwd := rfl

theorem walk_add {n : ν} (hd : d < fs.count) :
    (fs.add d n hd).walk links d [.name n] = some (links, fs.count) := by
  rw [walk, add_entry_self]
  show (fs.add d n hd).walk links fs.count [] = _
  rw [walk]

theorem mkdir_eq_some {fs' : FileSystem ν} (h : fs.mkdir p = some fs') :
    ∃ d n, ∃ hd : d < fs.count,
      fs.place p = some (d, n) ∧ fs.entry d n = none ∧ fs' = fs.add d n hd := by
  unfold mkdir at h
  split at h
  · rename_i d n hplace
    split at h
    · rename_i hfree
      exact ⟨d, n, place_lt hplace, hplace, hfree, (Option.some.inj h).symm⟩
    · cases h
  · cases h

theorem mkdir_extends {fs' : FileSystem ν} (h : fs.mkdir p = some fs') : Extends fs fs' := by
  obtain ⟨d, n, hd, -, hfree, rfl⟩ := mkdir_eq_some h
  exact add_extends hd hfree

/-- **The new directory** is where its path leads, and it is empty. -/
theorem mkdir_resolve {fs' : FileSystem ν} (h : fs.mkdir p = some fs') :
    fs'.resolve p = some fs.count ∧ ∀ n, fs'.entry fs.count n = none := by
  obtain ⟨d, n, hd, hplace, hfree, rfl⟩ := mkdir_eq_some h
  have hext := add_extends hd hfree
  refine ⟨?_, fun n' => ?_⟩
  · unfold place at hplace
    split at hplace
    · rename_i n' hlast
      obtain ⟨r, hwalk, heq⟩ := Option.map_eq_some_iff.mp hplace
      cases heq
      have hcomps := List.dropLast_append_getLast? _ hlast
      unfold resolve
      rw [hext.cwd, hext.origin, ← hcomps, walk_append, hext.walk (origin_lt fs.cwd_lt) hwalk,
        Option.bind_some, walk_add, Option.map_some]
    · cases hplace
  · refine (add_entry_of_ne hd fun heq => absurd (heq.1 ▸ hd) (Nat.lt_irrefl _)).trans ?_
    cases hentry : fs.entry fs.count n' with
    | none => rfl
    | some e => exact absurd (fs.entry_lt hentry) (Nat.lt_irrefl _)

theorem mkdir_eq_none {n : ν} (hplace : fs.place p = some (d, n)) (h : fs.mkdir p = none) :
    ∃ e, fs.entry d n = some e := by
  unfold mkdir at h
  split at h
  · rename_i d' n' hplace'
    obtain ⟨rfl, rfl⟩ := Prod.mk.inj (Option.some.inj (hplace.symm.trans hplace'))
    split at h
    · cases h
    · rename_i hentry
      exact Option.ne_none_iff_exists'.mp hentry
  · rename_i hnone
    rw [hplace] at hnone
    cases hnone

end FileSystem

end Directories
