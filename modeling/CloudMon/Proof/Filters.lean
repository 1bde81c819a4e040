import CloudMon.Dashboard.Files

/-!
# One walk with three filters, and three filters one after the other

The combined search takes a path's last three components at once, the separate ones
take one each. On paths that have three, both are tests of the path, and they are the
same test as long as a node filter is given: where there is none, the flag that would
say so is never set, and nothing is found.

On shorter paths taking three components at once raises an exception that is not the
one it is ready for.
-/

namespace CloudMon.Proof

open CloudMon

/-- Three components to be taken at once. -/
def Deep (path : Bytes) : Prop := 3 ≤ (pathParts path).length

instance : DecidablePred Deep := fun _ => inferInstanceAs (Decidable (_ ≤ _))

/-- No filter is given. -/
def Unfiltered (nfilt ifilt mfilt : Option Bytes) : Prop :=
  nfilt = none ∧ ifilt = none ∧ mfilt = none

instance {nfilt ifilt mfilt : Option Bytes} : Decidable (Unfiltered nfilt ifilt mfilt) :=
  inferInstanceAs (Decidable (_ ∧ _))

/-- One of the three functions, where its filter is given. -/
def narrowed (narrow : Bytes → List Bytes → Except PyError (List Bytes)) (filt : Option Bytes)
    (files : List Bytes) : Except PyError (List Bytes) :=
  match filt with
  | none => .ok files
  | some wanted => narrow wanted files

/-- The three functions, one after the other. -/
def separately (nfilt ifilt mfilt : Option Bytes) (files : List Bytes) :
    Except PyError (List Bytes) := do
  let files ← narrowed getWhisperFilesByNode nfilt files
  let files ← narrowed getWhisperFilesByInstanceId ifilt files
  narrowed getWhisperFilesByMetric mfilt files

/--
The combined search raises nothing and finds what the separate ones find, in the same
order, files that are not deep enough being left out where there is any filter.
-/
def Agrees (topdir : Bytes) (disk : Disk) (nfilt ifilt mfilt : Option Bytes) : Prop :=
  ∃ out, getWhisperFilesList topdir disk nfilt ifilt mfilt = .ok out
    ∧ separately nfilt ifilt mfilt
        ((getWhisperFiles topdir disk).filter fun f => Unfiltered nfilt ifilt mfilt ∨ Deep f)
      = .ok out

/-- A filter is left out, or its text is in its component. -/
def passes (back : Nat) (filt : Option Bytes) (path : Bytes) : Bool :=
  filt.all fun wanted => ((pathParts path).reverse[back - 1]?).any fun part => wanted <:+: part

theorem partFromEnd_eq {back : Nat} {path : Bytes} (hback : 0 < back)
    (h : back ≤ (pathParts path).length) :
    ∃ part, (pathParts path).reverse[back - 1]? = some part
      ∧ partFromEnd back path = .ok part := by
  have hlt : back - 1 < (pathParts path).reverse.length := by
    rw [List.length_reverse]
    omega
  refine ⟨_, List.getElem?_eq_getElem hlt, ?_⟩
  rw [partFromEnd, List.getElem?_eq_getElem hlt]

/-- **Each separate search is a test of the path**, on paths that are deep enough for it. -/
theorem getWhisperFilesBy_eq {back : Nat} (hback : 0 < back) (wanted : Bytes) {files : List Bytes}
    (h : ∀ f ∈ files, back ≤ (pathParts f).length) :
    getWhisperFilesBy back wanted files = .ok (files.filter (passes back (some wanted))) := by
  refine filterM_eq_ok fun f hf => ?_
  obtain ⟨part, hpart, hok⟩ := partFromEnd_eq hback (h f hf)
  rw [hok, passes, hpart]
  rfl

theorem narrowed_eq {narrow : Bytes → List Bytes → Except PyError (List Bytes)} {back : Nat}
    {files : List Bytes} (filt : Option Bytes)
    (h : ∀ wanted, narrow wanted files = .ok (files.filter (passes back (some wanted)))) :
    narrowed narrow filt files = .ok (files.filter (passes back filt)) := by
  cases filt with
  | some wanted => exact h wanted
  | none =>
      have hall : files.filter (passes back none) = files :=
        List.filter_eq_self.mpr fun _ _ => rfl
      rw [hall]
      rfl

/-- The three tests of the three filters. -/
def passesAll (nfilt ifilt mfilt : Option Bytes) (path : Bytes) : Bool :=
  passes 3 nfilt path && passes 2 ifilt path && passes 1 mfilt path

theorem separately_eq (nfilt ifilt mfilt : Option Bytes) {files : List Bytes}
    (h : ∀ f ∈ files, Deep f) :
    separately nfilt ifilt mfilt files = .ok (files.filter (passesAll nfilt ifilt mfilt)) := by
  -- what is left after a search is no less deep
  have hnarrow : ∀ back : Nat, 0 < back → back ≤ 3 → ∀ (filt : Option Bytes) (q : Bytes → Bool),
      narrowed (getWhisperFilesBy back) filt (files.filter q)
        = .ok ((files.filter q).filter (passes back filt)) := by
    intro back hpos hback filt q
    refine narrowed_eq filt fun w => getWhisperFilesBy_eq hpos w fun f hf => ?_
    exact hback.trans (h f (List.mem_of_mem_filter hf))
  have hnode := hnarrow 3 (by decide) (by decide) nfilt fun _ => true
  have hinst := hnarrow 2 (by decide) (by decide) ifilt (passes 3 nfilt)
  have hmetric := hnarrow 1 (by decide) (by decide) mfilt
    fun f => passes 2 ifilt f && passes 3 nfilt f
  rw [List.filter_true] at hnode
  rw [List.filter_filter] at hinst hmetric
  have hall : (files.filter fun f =>
      passes 1 mfilt f && (passes 2 ifilt f && passes 3 nfilt f))
      = files.filter (passesAll nfilt ifilt mfilt) := by
    refine List.filter_congr fun f _ => ?_
    rw [passesAll, Bool.and_comm, Bool.and_comm (passes 2 ifilt f)]
  show (narrowed (getWhisperFilesBy 3) nfilt files >>= fun files =>
    narrowed (getWhisperFilesBy 2) ifilt files >>= narrowed (getWhisperFilesBy 1) mfilt) = _
  rw [hnode]
  show (narrowed (getWhisperFilesBy 2) ifilt (files.filter (passes 3 nfilt)) >>= _) = _
  rw [hinst]
  show narrowed (getWhisperFilesBy 1) mfilt _ = _
  rw [hmetric, hall]

/-- The last three components of a path that has them. -/
theorem exists_parts {path : Bytes} (h : Deep path) :
    ∃ fname instanceId node rest,
      (pathParts path).reverse = fname :: instanceId :: node :: rest := by
  have hlen : 3 ≤ (pathParts path).reverse.length := by
    rw [List.length_reverse]
    exact h
  match hparts : (pathParts path).reverse, hlen with
  | fname :: instanceId :: node :: rest, _ => exact ⟨fname, instanceId, node, rest, rfl⟩

/-- The combined test, on a path that has three components. -/
theorem matchFilter_deep {nfilt ifilt mfilt : Option Bytes} (h : ¬ Unfiltered nfilt ifilt mfilt)
    {path : Bytes} (hdeep : Deep path) :
    matchFilter nfilt ifilt mfilt path
      = .ok (nfilt.isSome && passesAll nfilt ifilt mfilt path) := by
  obtain ⟨fname, instanceId, node, rest, hparts⟩ := exists_parts hdeep
  unfold Unfiltered at h
  unfold matchFilter passesAll passes
  rw [if_neg h, hparts]
  cases nfilt with
  | none => cases ifilt <;> cases mfilt <;> simp
  | some n => cases ifilt <;> cases mfilt <;> simp

/-- On a shorter one it raises. -/
theorem matchFilter_shallow {nfilt ifilt mfilt : Option Bytes} (h : ¬ Unfiltered nfilt ifilt mfilt)
    {path : Bytes} (hdeep : ¬ Deep path) :
    matchFilter nfilt ifilt mfilt path = .error .valueError := by
  unfold Unfiltered at h
  unfold matchFilter
  rw [if_neg h]
  dsimp only
  split
  · rename_i fname instanceId node htake
    refine absurd ?_ hdeep
    have hlen := congrArg List.length htake
    rw [List.length_take, List.length_reverse] at hlen
    simp only [List.length_cons, List.length_nil] at hlen
    show 3 ≤ _
    omega
  · rfl

/-- Where no filter is given every file passes, and there is nothing to narrow it down by. -/
theorem agrees_of_unfiltered (topdir : Bytes) (disk : Disk) {nfilt ifilt mfilt : Option Bytes}
    (h : Unfiltered nfilt ifilt mfilt) : Agrees topdir disk nfilt ifilt mfilt := by
  refine ⟨getWhisperFiles topdir disk, ?_, ?_⟩
  · have hmatch : ∀ f ∈ getWhisperFiles topdir disk,
        matchFilter nfilt ifilt mfilt f = .ok ((fun _ => true) f) := fun f _ => if_pos h
    rw [getWhisperFilesList, filterM_eq_ok hmatch, List.filter_true]
  · obtain ⟨rfl, rfl, rfl⟩ := h
    have hkept : ((getWhisperFiles topdir disk).filter fun f =>
        Unfiltered none none none ∨ Deep f) = getWhisperFiles topdir disk :=
      List.filter_eq_self.mpr fun f _ => decide_eq_true (Or.inl ⟨rfl, rfl, rfl⟩)
    rw [hkept]
    rfl

/-- A path that is too short ends the combined search. -/
theorem deep_of_agrees {topdir : Bytes} {disk : Disk} {nfilt ifilt mfilt : Option Bytes}
    (hun : ¬ Unfiltered nfilt ifilt mfilt) (h : Agrees topdir disk nfilt ifilt mfilt) :
    ∀ f ∈ getWhisperFiles topdir disk, Deep f := by
  obtain ⟨out, hout, _⟩ := h
  intro f hf
  by_contra hshort
  exact filterM_ne_ok hf (matchFilter_shallow hun hshort) out hout

/-- Among paths that are long enough, only a missing node filter tells the two apart. -/
theorem agrees_iff_of_deep {topdir : Bytes} {disk : Disk} {nfilt ifilt mfilt : Option Bytes}
    (hun : ¬ Unfiltered nfilt ifilt mfilt) (hdeep : ∀ f ∈ getWhisperFiles topdir disk, Deep f) :
    Agrees topdir disk nfilt ifilt mfilt
      ↔ nfilt ≠ none ∨ ∀ f ∈ getWhisperFiles topdir disk,
          (passes 2 ifilt f && passes 1 mfilt f) = false := by
  unfold Agrees
  have hkept : ((getWhisperFiles topdir disk).filter fun f =>
      Unfiltered nfilt ifilt mfilt ∨ Deep f) = getWhisperFiles topdir disk :=
    List.filter_eq_self.mpr fun f hf => decide_eq_true (Or.inr (hdeep f hf))
  rw [hkept, separately_eq nfilt ifilt mfilt hdeep, getWhisperFilesList,
    filterM_eq_ok fun f hf => matchFilter_deep hun (hdeep f hf)]
  cases nfilt with
  | some n =>
      refine iff_of_true ⟨_, rfl, ?_⟩ (Or.inl (Option.some_ne_none n))
      simp only [Option.isSome_some, Bool.true_and]
  | none =>
      -- the combined search finds nothing, so there must be nothing to find
      have htest : passesAll none ifilt mfilt = fun f => passes 2 ifilt f && passes 1 mfilt f :=
        funext fun f => by rw [passesAll, show passes 3 none f = true from rfl, Bool.true_and]
      simp only [Option.isSome_none, Bool.false_and, List.filter_false, htest]
      refine ⟨?_, ?_⟩
      · intro h
        obtain ⟨out, hout, hfound⟩ := h
        have hnil : (getWhisperFiles topdir disk).filter
            (fun f => passes 2 ifilt f && passes 1 mfilt f) = [] :=
          (Except.ok.inj hfound).trans (Except.ok.inj hout).symm
        exact Or.inr fun f hf => Bool.eq_false_iff.mpr (List.filter_eq_nil_iff.mp hnil f hf)
      · intro h
        have hnone := h.resolve_left (fun hne => hne rfl)
        refine ⟨[], rfl, congrArg Except.ok (List.filter_eq_nil_iff.mpr fun f hf => ?_)⟩
        exact Bool.eq_false_iff.mp (hnone f hf)

/--
**The two agree exactly** where no filter is given, or where no path is too short and
either there is a node filter or no file passes the others.
-/
theorem agrees_iff (topdir : Bytes) (disk : Disk) (nfilt ifilt mfilt : Option Bytes) :
    Agrees topdir disk nfilt ifilt mfilt
      ↔ Unfiltered nfilt ifilt mfilt
        ∨ (∀ f ∈ getWhisperFiles topdir disk, Deep f)
          ∧ (nfilt ≠ none ∨ ∀ f ∈ getWhisperFiles topdir disk,
              (passes 2 ifilt f && passes 1 mfilt f) = false) := by
  by_cases hun : Unfiltered nfilt ifilt mfilt
  · exact iff_of_true (agrees_of_unfiltered topdir disk hun) (Or.inl hun)
  · rw [or_iff_right hun]
    refine ⟨?_, ?_⟩
    · intro h
      have hdeep := deep_of_agrees hun h
      exact ⟨hdeep, (agrees_iff_of_deep hun hdeep).mp h⟩
    · intro h
      obtain ⟨hdeep, hpass⟩ := h
      exact (agrees_iff_of_deep hun hdeep).mpr hpass

/-- One file of one instance. -/
def oneFile : Disk :=
  .dir [(bytes "host", .dir [(bytes "u-1", .dir [(bytes "cpu.wsp", .file)])])]

/-- Asked for an instance on any node, the combined search does not find the file. -/
theorem not_agrees_instanceOnly :
    ¬ Agrees (bytes "/data") oneFile none (some (bytes "u-1")) none := by
  intro h
  obtain ⟨out, hcombined, hseparate⟩ := h
  have hout : ([] : List Bytes) = out := Except.ok.inj (Eq.trans (by decide +kernel) hcombined)
  have hfound : [bytes "/data/host/u-1/cpu.wsp"] = out :=
    Except.ok.inj (Eq.trans (by decide +kernel) hseparate)
  rw [← hout] at hfound
  cases hfound

end CloudMon.Proof
