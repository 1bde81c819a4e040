import Mathlib.Data.List.Basic
import Mathlib.Data.List.Induction

/-!
# Output that is buffered

What a program prints goes into a buffer, and from there to the reader in pieces that the
library decides on: a flush hands on everything, a print may hand on as much as it likes.
So the reader has the beginning of what was printed, cut anywhere, and when the program is
killed that is all it will ever have.

What it can be missing is no more than what was printed since the last flush. Where the
program prints records and flushes behind the urgent ones, these are records at the end
none of which is urgent, unless the last one was being printed at that moment.
-/

namespace Buffered

variable {α β : Type}

inductive Call (α : Type) where
  | print (text : List α)
  | flush

structure Stream (α : Type) where
  /-- What the reader has been given. -/
  handed : List α
  /-- What is still in the buffer. -/
  kept : List α

/-- What the calls so far may have left. -/
inductive After : List (Call α) → Stream α → Prop where
  | opened : After [] ⟨[], []⟩
  | print {cs : List (Call α)} {s : Stream α} {text front back : List α} : After cs s →
      s.kept ++ text = front ++ back → After (cs ++ [.print text]) ⟨s.handed ++ front, back⟩
  | flush {cs : List (Call α)} {s : Stream α} : After cs s →
      After (cs ++ [.flush]) ⟨s.handed ++ s.kept, []⟩

/-- All that was printed. -/
def text (cs : List (Call α)) : List α :=
  cs.flatMap fun
    | .print text => text
    | .flush => []

/-- What was printed, print by print. -/
def prints (cs : List (Call α)) : List (List α) :=
  cs.filterMap fun
    | .print text => some text
    | .flush => none

/-- What was printed since the last flush. -/
def pending (cs : List (Call α)) : List α :=
  cs.foldl (fun sofar c =>
    match c with
    | .print text => sofar ++ text
    | .flush => []) []

theorem text_append (cs ds : List (Call α)) : text (cs ++ ds) = text cs ++ text ds :=
  List.flatMap_append

@[simp] theorem text_print (t : List α) : text [.print t] = t := List.append_nil t

@[simp] theorem text_flush : text [(.flush : Call α)] = [] := rfl

theorem prints_append (cs ds : List (Call α)) : prints (cs ++ ds) = prints cs ++ prints ds :=
  List.filterMap_append

theorem flatten_prints (cs : List (Call α)) : (prints cs).flatten = text cs := by
  induction cs with
  | nil => rfl
  | cons c cs ih =>
      cases c with
      | print t => exact congrArg (t ++ ·) ih
      | flush => exact ih

@[simp] theorem pending_concat_print (cs : List (Call α)) (t : List α) :
    pending (cs ++ [.print t]) = pending cs ++ t := List.foldl_concat ..

@[simp] theorem pending_concat_flush (cs : List (Call α)) : pending (cs ++ [.flush]) = [] :=
  List.foldl_concat ..

variable {cs : List (Call α)} {s : Stream α}

/-- **Nothing is lost in the buffer**, as long as it is there. -/
theorem After.whole (h : After cs s) : s.handed ++ s.kept = text cs := by
  induction h with
  | opened => rfl
  | print _ hcut ih =>
      rw [text_append, text_print, ← ih, List.append_assoc, ← hcut, List.append_assoc]
  | flush _ ih => rw [text_append, text_flush, List.append_nil, List.append_nil, ih]

/-- What is kept was printed since the last flush. -/
theorem After.kept (h : After cs s) : s.kept <:+ pending cs := by
  induction h with
  | opened => exact List.suffix_rfl
  | @print cs s text front back _ hcut ih =>
      rw [pending_concat_print]
      obtain ⟨early, hearly⟩ := ih
      exact ⟨early ++ front, by rw [← hearly, List.append_assoc, List.append_assoc, hcut]⟩
  | flush _ _ => exact List.nil_suffix

/-- So the reader has all that was printed before, and a part of the rest. -/
theorem After.cut {done late : List α} (h : After cs s) (htext : text cs = done ++ late)
    (hpending : pending cs = late) :
    ∃ part, s.handed = done ++ part ∧ part ++ s.kept = late := by
  obtain ⟨part, hpart⟩ := hpending ▸ h.kept
  refine ⟨part, ?_, hpart⟩
  have hwhole := h.whole
  rw [htext, ← hpart, ← List.append_assoc] at hwhole
  exact List.append_cancel_right hwhole

/-- Whatever the calls, they may have left everything with the reader. -/
theorem after_handed (cs : List (Call α)) : After cs ⟨text cs, []⟩ := by
  induction cs using List.reverseRecOn with
  | nil => exact .opened
  | append_singleton cs c ih =>
      rw [text_append]
      cases c with
      | print t =>
          rw [text_print]
          exact ih.print (List.append_nil _).symm
      | flush => exact ih.flush

/-- Nor need they have given it anything before a flush. -/
theorem after_pending (cs : List (Call α)) : ∃ handed, After cs ⟨handed, pending cs⟩ := by
  induction cs using List.reverseRecOn with
  | nil => exact ⟨[], .opened⟩
  | append_singleton cs c ih =>
      obtain ⟨handed, h⟩ := ih
      cases c with
      | print t =>
          rw [pending_concat_print]
          exact ⟨handed ++ [], h.print rfl⟩
      | flush =>
          rw [pending_concat_flush]
          exact ⟨_, h.flush⟩

/-! ## Records, the urgent ones flushed -/

section Records

variable (urgent : β → Bool) (line : β → List α)

def record (r : β) : List (Call α) := .print (line r) :: if urgent r then [.flush] else []

def records (rs : List β) : List (Call α) := rs.flatMap (record urgent line)

variable {urgent line}

theorem records_append (rs rs' : List β) :
    records urgent line (rs ++ rs') = records urgent line rs ++ records urgent line rs' :=
  List.flatMap_append

theorem text_records (rs : List β) : text (records urgent line rs) = rs.flatMap line := by
  induction rs using List.reverseRecOn with
  | nil => rfl
  | append_singleton rs r ih =>
      have hrecord : text (records urgent line [r]) = line r := by
        rw [records, List.flatMap_singleton, record]
        split
        · exact List.append_nil _
        · exact List.append_nil _
      rw [records_append, text_append, ih, hrecord, List.flatMap_append, List.flatMap_singleton]

theorem prints_records (rs : List β) : prints (records urgent line rs) = rs.map line := by
  induction rs with
  | nil => rfl
  | cons r rs ih =>
      have hrecord : prints (record urgent line r) = [line r] := by
        rw [record]
        split
        · rfl
        · rfl
      rw [records, List.flatMap_cons, prints_append, hrecord, List.map_cons, ← ih]
      rfl

/-- What some of the calls print are the first records. -/
theorem prints_prefix {rs : List β} (h : cs <+: records urgent line rs) :
    ∃ done, done <+: rs ∧ prints cs = done.map line := by
  have hall : prints (records urgent line rs) = rs.map line := prints_records rs
  have hprints : prints cs <+: rs.map line := hall ▸ h.filterMap _
  exact ⟨_, List.take_prefix _ rs, (List.prefix_iff_eq_take.mp hprints).trans List.map_take.symm⟩

/-- **Between two records** no urgent one is pending. -/
theorem pending_records (urgent : β → Bool) (line : β → List α) (rs : List β) :
    ∃ done late, rs = done ++ late ∧ (∀ r ∈ late, urgent r = false)
      ∧ pending (records urgent line rs) = late.flatMap line := by
  induction rs using List.reverseRecOn with
  | nil => exact ⟨[], [], rfl, nofun, rfl⟩
  | append_singleton rs r ih =>
      rw [records_append, records, records, List.flatMap_singleton, record]
      cases hr : urgent r with
      | true =>
          refine ⟨rs ++ [r], [], (List.append_nil _).symm, nofun, ?_⟩
          rw [if_pos rfl, List.append_cons, pending_concat_flush]
          rfl
      | false =>
          obtain ⟨done, late, rfl, hlate, hpending⟩ := ih
          refine ⟨done, late ++ [r], List.append_assoc .., fun r' hr' => ?_, ?_⟩
          · rcases List.mem_append.mp hr' with hr' | hr'
            · exact hlate r' hr'
            · exact List.mem_singleton.mp hr' ▸ hr
          · rw [if_neg Bool.false_ne_true, pending_concat_print]
            rw [records] at hpending
            rw [hpending, List.flatMap_append, List.flatMap_singleton]

/-- **At any moment** none but the last record pending is urgent. -/
theorem pending_prefix {rs : List β} (h : cs <+: records urgent line rs) :
    ∃ done late, done ++ late <+: rs ∧ (∀ r ∈ late.dropLast, urgent r = false)
      ∧ text cs = done.flatMap line ++ late.flatMap line ∧ pending cs = late.flatMap line := by
  induction rs using List.reverseRecOn with
  | nil =>
      rw [List.prefix_nil.mp h]
      exact ⟨[], [], List.nil_prefix, nofun, rfl, rfl⟩
  | append_singleton rs r ih =>
      have hlast : records urgent line (rs ++ [r])
          = records urgent line rs ++ [.print (line r)] ++ if urgent r then [.flush] else [] := by
        rw [records_append, List.append_assoc]
        exact congrArg _ (List.flatMap_singleton ..)
      have hin : rs <+: rs ++ [r] := List.prefix_append _ _
      have hbefore : cs <+: records urgent line rs ++ [.print (line r)] →
          ∃ done late, done ++ late <+: rs ++ [r] ∧ (∀ r ∈ late.dropLast, urgent r = false)
            ∧ text cs = done.flatMap line ++ late.flatMap line
            ∧ pending cs = late.flatMap line := by
        intro h
        rcases List.prefix_concat_iff.mp h with rfl | h
        · -- the record is printed, and not flushed yet
          obtain ⟨done, late, rfl, hlate, hpending⟩ := pending_records urgent line rs
          refine ⟨done, late ++ [r], (List.append_assoc ..).symm ▸ List.prefix_rfl, ?_, ?_, ?_⟩
          · rw [List.dropLast_concat]
            exact hlate
          · rw [text_append, text_records, text_print, List.flatMap_append, List.flatMap_append,
              List.flatMap_singleton, List.append_assoc]
          · rw [pending_concat_print, hpending, List.flatMap_append, List.flatMap_singleton]
        · obtain ⟨done, late, hsub, hrest⟩ := ih h
          exact ⟨done, late, hsub.trans hin, hrest⟩
      rw [hlast] at h
      cases hr : urgent r with
      | false =>
          rw [hr, if_neg Bool.false_ne_true, List.append_nil] at h
          exact hbefore h
      | true =>
          rw [hr, if_pos rfl] at h
          rcases List.prefix_concat_iff.mp h with rfl | h
          · refine ⟨rs ++ [r], [], by simp, nofun, ?_, pending_concat_flush _⟩
            rw [text_append, text_append, text_records, text_print, text_flush, List.append_nil,
              List.flatMap_nil, List.append_nil, List.flatMap_append, List.flatMap_singleton]
          · exact hbefore h

/-- A part of some records is some of them whole and a piece of the next. -/
theorem exists_torn {rs : List β} {part : List α} (h : part <+: rs.flatMap line) :
    ∃ whole rest piece, rs = whole ++ rest ∧ part = whole.flatMap line ++ piece
      ∧ (piece = [] ∨ ∃ r, rest.head? = some r ∧ piece <+: line r ∧ piece ≠ line r) := by
  induction rs generalizing part with
  | nil => exact ⟨[], [], [], rfl, List.prefix_nil.mp h, Or.inl rfl⟩
  | cons r rs ih =>
      rw [List.flatMap_cons] at h
      rcases List.prefix_or_prefix_of_prefix h (List.prefix_append _ _) with hpart | ⟨more, rfl⟩
      · by_cases hall : part = line r
        · refine ⟨[r], rs, [], rfl, ?_, Or.inl rfl⟩
          rw [hall, List.flatMap_singleton, List.append_nil]
        · exact ⟨[], r :: rs, part, rfl, rfl, Or.inr ⟨r, rfl, hpart, hall⟩⟩
      · have hmore := (List.prefix_append_right_inj _).mp h
        obtain ⟨whole, rest, piece, rfl, rfl, hpiece⟩ := ih hmore
        refine ⟨r :: whole, rest, piece, rfl, ?_, hpiece⟩
        rw [List.flatMap_cons, List.append_assoc]

end Records

end Buffered
