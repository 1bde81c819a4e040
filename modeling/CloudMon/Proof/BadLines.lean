import CloudMon.Proof.Names

/-!
# One bad line ends the loop

`main` calls `process_cmd` and nothing around the call catches anything. A line
without a word, a number that is none, a directory that cannot be made, a time that
whisper does not take: each of them ends the program, and every line behind it is
lost, whichever host sent it.

What a line does is one function of the line and of the answers from outside,
`serveLine`. The loop gets to the end of its input exactly when that function is defined
all the way.
-/

namespace CloudMon.Proof

open CloudMon Wp

variable {φ : Type}

/-- The two numbers of a line, in the call of whisper they are meant for. -/
def fields (path : Bytes) : List Bytes → Option WhisperUpdate
  | text :: time :: _ => do
    let value ← pyFloat text
    let timestamp ← pyFloat time
    some ⟨path, value, timestamp⟩
  | _ => none

theorem fields_path {path : Bytes} {data : List Bytes} {c : WhisperUpdate}
    (h : fields path data = some c) : c.path = path := by
  unfold fields at h
  split at h
  · simp only [Option.bind_eq_bind, Option.bind_eq_some_iff, Option.some.injEq] at h
    obtain ⟨value, -, timestamp, -, rfl⟩ := h
    rfl
  · exact nomatch h

/-- The call of whisper an update asks for, if it is well formed. -/
def asked (u : Updater) (key rest : Bytes) : Option WhisperUpdate :=
  if 0 ∈ fileOf u key then none else fields (fileOf u key) (split rest)

/-- Whether the directory and the file can be made, and the world after that. -/
def makes (st : Storage φ) (path : Bytes) (w : φ) : Bool × φ :=
  let (errno, w) := st.makedirs (osPathDirname path) w
  if errno = none ∨ errno = some eexist then
    st.create path [(metricSecPerPoint, metricPointsToStore)] w
  else (false, w)

/-- Whether the file is there or can be made, and whisper accepts; and the world after that. -/
def takes (st : Storage φ) (c : WhisperUpdate) (w : φ) : Bool × φ :=
  let (found, w) := st.pathExists c.path w
  if found then st.update c w
  else
    let (made, w) := makes st c.path w
    if made then st.update c w else (false, w)

/-- The updates a line makes, and the world after it. `none` is a bad line. -/
def serveLine (u : Updater) (st : Storage φ) (w : φ) (line : Bytes) :
    Option (List WhisperUpdate × φ) :=
  match command line with
  | none => none
  | some .ignored | some (.terminate _) => some ([], w)
  | some (.update key rest) =>
    match asked u key rest with
    | none => none
    | some c => if (takes st c w).1 then some ([c], (takes st c w).2) else none

/-- No line raises anything in the world it finds. -/
def NoBadLine (u : Updater) (st : Storage φ) : φ → List Bytes → Prop
  | _, [] => True
  | w, line :: lines => ∃ made w', serveLine u st w line = some (made, w') ∧ NoBadLine u st w' lines

/-- The updates of the lines that are well formed and accepted: each line taken by itself. -/
def apart (u : Updater) (st : Storage φ) : φ → List Bytes → List WhisperUpdate
  | _, [] => []
  | w, line :: lines =>
    match u.processCmd st (strip line) ⟨w, []⟩ with
    | .ok _ s => s.updates ++ apart u st s.world lines
    | .error _ s => apart u st s.world lines

/-- **A bad line costs only itself**: the input is read to its end, and the other lines count. -/
def CostsOnlyItself (u : Updater) (st : Storage φ) (w : φ) (input : Bytes) : Prop :=
  ∃ s, u.mainLoop st input ⟨w, []⟩ = .ok ⟨⟩ s ∧ s.updates = apart u st w (inputLines input)

/-! ## One line -/

theorem wp_whisperCall {f : φ → Bool × φ} {s : Session φ} {Q : PUnit → Session φ → Prop}
    {E : PyError → Session φ → Prop} :
    wp (whisperCall f) s Q E ↔ if (f s.world).1
      then Q ⟨⟩ { s with world := (f s.world).2 }
      else E .whisperException { s with world := (f s.world).2 } := by
  rw [whisperCall, wp_bind, wp_call, wp_ite]
  cases (f s.world).1 <;> simp

/-- Making the file is no update, and succeeds when both its calls do. -/
theorem wp_createDatabase (st : Storage φ) (path : Bytes) (s : Session φ) :
    wp (Updater.createDatabase st path) s
      (fun _ t => makes st path s.world = (true, t.world) ∧ t.updates = s.updates)
      (fun _ _ => (makes st path s.world).1 = false) := by
  unfold Updater.createDatabase makes
  simp only [mkdirs, wp_bind, wp_call, emit, wp_modify]
  cases herrno : (st.makedirs (osPathDirname path) s.world).1 with
  | none =>
      simp only [wp_pure, wp_whisperCall, true_or, if_true]
      split
      · rename_i hmade
        exact ⟨Prod.ext hmade rfl, by simp [Session.updates]⟩
      · rename_i hmade
        exact Bool.not_eq_true _ ▸ hmade
  | some errno =>
      simp only [wp_ite, wp_throw, wp_pure, wp_whisperCall]
      refine ⟨fun hne => ?_, fun heq => ?_⟩
      · simp [hne]
      · obtain rfl := not_not.mp heq
        simp only [or_true, if_true]
        split
        · rename_i hmade
          exact ⟨Prod.ext hmade rfl, by simp [Session.updates]⟩
        · rename_i hmade
          exact Bool.not_eq_true _ ▸ hmade

/-- The end of `update`: the numbers are there and whisper accepts, or something is raised. -/
theorem wp_record (st : Storage φ) (path : Bytes) (data : List Bytes) (t : Session φ) :
    wp (do
        let value ← float (← item data 0)
        let timestamp ← float (← item data 1)
        emit (.whisperUpdate ⟨path, value, timestamp⟩)
        whisperCall (st.update ⟨path, value, timestamp⟩)) t
      (fun _ s' => ∃ c, fields path data = some c ∧ st.update c t.world = (true, s'.world)
        ∧ s'.updates = t.updates ++ [c])
      (fun _ _ => ∀ c, fields path data = some c → (st.update c t.world).1 = false) := by
  cases data with
  | nil => exact nofun
  | cons text data =>
      simp only [item, float, wp_bind, List.getElem?_cons_zero, List.getElem?_cons_succ, wp_pure]
      cases htext : pyFloat text with
      | none =>
          cases data with
          | nil => exact nofun
          | cons time data =>
              intro c hc
              simp [fields, htext] at hc
      | some value =>
          cases data with
          | nil => exact nofun
          | cons time data =>
              simp only [wp_pure, List.getElem?_cons_zero, fields, htext]
              cases htime : pyFloat time with
              | none => exact nofun
              | some timestamp =>
                  simp only [wp_pure, emit, wp_modify, wp_whisperCall]
                  cases htake : (st.update ⟨path, value, timestamp⟩ t.world).1 with
                  | false =>
                      intro c hc
                      obtain rfl := Option.some.inj hc
                      exact htake
                  | true =>
                      refine ⟨_, rfl, Prod.ext htake rfl, ?_⟩
                      simp [Session.updates]

/-- **One update** is what `takes` says, on the call its line asks for. -/
theorem wp_update_takes (u : Updater) (st : Storage φ) (key rest : Bytes) (s : Session φ) :
    wp (u.update st (metricOf key) rest) s
      (fun _ s' => ∃ c, asked u key rest = some c ∧ takes st c s.world = (true, s'.world)
        ∧ s'.updates = s.updates ++ [c])
      (fun _ _ => ∀ c, asked u key rest = some c → (takes st c s.world).1 = false) := by
  have hpath : osPathJoin u.root (metricOf key) ++ bytes ".wsp" = fileOf u key := rfl
  unfold Updater.update asked
  simp only [hpath, osPathExists]
  by_cases hnul : 0 ∈ fileOf u key
  · -- the name is refused, and nothing was asked for
    simp only [if_pos hnul]
    intro c hc
    cases hc
  · simp only [if_neg hnul]
    rw [wp_bind, wp_call, wp_ite]
    refine ⟨fun hfound => ?_, fun hfound => ?_⟩
    · -- no file yet: the directory and the file come first
      rw [Bool.not_eq_true'] at hfound
      rw [wp_bind]
      refine wp_mono (wp_createDatabase st (fileOf u key) _) ?_ ?_
      · intro _ t ht
        obtain ⟨hmade, hupdates⟩ := ht
        have htakes : ∀ c, fields (fileOf u key) (split rest) = some c →
            takes st c s.world = st.update c t.world := by
          intro c hc
          simp only [takes, fields_path hc, hfound, hmade, if_true, Bool.false_eq_true, if_false]
        refine wp_mono (wp_record st (fileOf u key) (split rest) t) ?_ ?_
        · intro _ s' hs'
          obtain ⟨c, hc, htake, hs'⟩ := hs'
          exact ⟨c, hc, (htakes c hc).trans htake, by rw [hs', hupdates]; rfl⟩
        · intro e s' hs' c hc
          rw [htakes c hc]
          exact hs' c hc
      · intro e t ht c hc
        simp only [takes, fields_path hc, hfound, ht, Bool.false_eq_true, if_false]
    · rw [Bool.not_eq_true', Bool.not_eq_false] at hfound
      have htakes : ∀ c, fields (fileOf u key) (split rest) = some c →
          takes st c s.world = st.update c (st.pathExists (fileOf u key) s.world).2 := by
        intro c hc
        simp only [takes, fields_path hc, hfound, if_true]
      refine wp_mono (wp_record st (fileOf u key) (split rest) _) ?_ ?_
      · intro _ s' hs'
        obtain ⟨c, hc, htake, hs'⟩ := hs'
        exact ⟨c, hc, (htakes c hc).trans htake, hs'⟩
      · intro e s' hs' c hc
        rw [htakes c hc]
        exact hs' c hc

/-- **One line** is what `serveLine` says, whichever way it ends. -/
theorem wp_processCmd_serveLine (u : Updater) (st : Storage φ) (line : Bytes) (s : Session φ) :
    wp (u.processCmd st (strip line)) s
      (fun _ s' => ∃ made, serveLine u st s.world line = some (made, s'.world)
        ∧ s'.updates = s.updates ++ made)
      (fun _ _ => serveLine u st s.world line = none) := by
  rw [Updater.processCmd_eq, command_strip]
  unfold serveLine
  cases command line with
  | none => rfl
  | some cmd =>
      cases cmd with
      | ignored => exact ⟨[], rfl, (List.append_nil _).symm⟩
      | terminate whichInstance => exact ⟨[], rfl, by simp [Session.updates]⟩
      | update key rest =>
          refine wp_mono (wp_update_takes u st key rest s) ?_ ?_
          · intro _ s' hs'
            obtain ⟨c, hc, htake, hupdates⟩ := hs'
            exact ⟨[c], by simp only [hc, htake, if_true], hupdates⟩
          · intro e s' hs'
            cases hc : asked u key rest with
            | none => simp only [hc]
            | some c => simp only [hc, hs' c hc, Bool.false_eq_true, if_false]

/-! ## The loop -/

/-- A line that is served makes the same updates by itself. -/
theorem apart_cons {u : Updater} {st : Storage φ} {w w' : φ} {line : Bytes} {lines : List Bytes}
    {made : List WhisperUpdate} (h : serveLine u st w line = some (made, w')) :
    apart u st w (line :: lines) = made ++ apart u st w' lines := by
  have hrun := wp_processCmd_serveLine u st line ⟨w, []⟩
  rw [wp, h] at hrun
  rw [apart]
  cases hline : u.processCmd st (strip line) ⟨w, []⟩ with
  | ok _ s =>
      rw [hline] at hrun
      obtain ⟨made', hmade, hupdates⟩ := hrun
      injection hmade with hmade
      injection hmade with hmade hworld
      dsimp only
      rw [hupdates, ← hmade, hworld]
      rfl
  | error e s =>
      rw [hline] at hrun
      exact nomatch hrun

/-- **The loop ends well exactly when no line is bad**, and then every line has counted. -/
theorem wp_mainLoop (u : Updater) (st : Storage φ) (lines : List Bytes) (s : Session φ) :
    wp (lines.forM fun line => u.processCmd st (strip line)) s
      (fun _ s' => NoBadLine u st s.world lines
        ∧ s'.updates = s.updates ++ apart u st s.world lines)
      (fun _ _ => ¬ NoBadLine u st s.world lines) := by
  induction lines generalizing s with
  | nil => exact ⟨trivial, (List.append_nil _).symm⟩
  | cons line lines ih =>
      show wp (u.processCmd st (strip line) >>= fun _ => lines.forM _) s _ _
      rw [wp_bind]
      refine wp_mono (wp_processCmd_serveLine u st line s) ?_ ?_
      · intro _ t ht
        obtain ⟨made, hserve, hupdates⟩ := ht
        refine wp_mono (ih t) ?_ ?_
        · intro _ s' hs'
          refine ⟨⟨made, t.world, hserve, hs'.1⟩, ?_⟩
          rw [hs'.2, hupdates, apart_cons hserve, List.append_assoc]
        · intro e s' hs' hall
          -- the line was served, so the rest of the input is to blame
          obtain ⟨made', w', hserve', hrest⟩ := hall
          rw [hserve] at hserve'
          injection hserve' with hserve'
          injection hserve' with _ hworld
          exact hs' (hworld ▸ hrest)
      · intro e t hnone hall
        obtain ⟨made, w', hserve, -⟩ := hall
        rw [hnone] at hserve
        exact nomatch hserve

/--
**A bad line costs only itself exactly when there is none.** The first one takes
every line behind it along.
-/
theorem costsOnlyItself_iff (u : Updater) (st : Storage φ) (w : φ) (input : Bytes) :
    CostsOnlyItself u st w input ↔ NoBadLine u st w (inputLines input) := by
  have hrun := wp_mainLoop u st (inputLines input) ⟨w, []⟩
  refine ⟨fun h => ?_, fun h => ?_⟩
  · obtain ⟨s, hs, -⟩ := h
    exact (wp_of_ok hrun hs).1
  · obtain ⟨_, s, hs, -, hupdates⟩ :=
      wp_noThrow (wp_mono hrun (fun _ _ h => h) fun _ _ hbad => hbad h)
    exact ⟨s, hs, hupdates⟩

/-! ## A blank line -/

/-- A blank line, and an update behind it. -/
def blankFirst : Bytes := 10 :: (bytes "monitor.servers.a.u-1.cpu 1 2" ++ [10])

/-- The loop ends at the blank line, and the update is lost that would have been made without it. -/
theorem not_costsOnlyItself_blank :
    ¬ CostsOnlyItself dataUpdater emptyDisk () blankFirst
      ∧ wp (dataUpdater.mainLoop emptyDisk blankFirst) ⟨(), []⟩ (fun _ _ => False)
        (fun e s => e = .indexError ∧ s.updates = [])
      ∧ apart dataUpdater emptyDisk () (inputLines blankFirst)
        = [⟨bytes "/data/servers/a/u-1/cpu.wsp", .fin 1, .fin 2⟩] := by
  have hrun : wp (dataUpdater.mainLoop emptyDisk blankFirst) ⟨(), []⟩ (fun _ _ => False)
      (fun e s => e = .indexError ∧ s.updates = []) := by decide +kernel
  refine ⟨fun h => ?_, hrun, by decide +kernel⟩
  obtain ⟨s, hs, -⟩ := h
  exact wp_of_ok hrun hs

end CloudMon.Proof
