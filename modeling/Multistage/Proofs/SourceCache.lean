import Mathlib.Data.List.Induction
import Multistage.Session

/-!
# Loaded sources stay what they are

A session remembers each source that it has loaded by path and mode, and the files may change at any time. A
run is any sequence of changes and loads.

* `Session.load_cases` says once what a load can do;
* `Session.loaded?_after` and `Session.source?_after`: nothing that is remembered is lost or changed;
* `Session.loaded?_iff`: what is remembered is what has been loaded successfully;
* `Session.Alike.after`: loads of other paths and in other modes leave no trace;
* `Session.loads_are_consistent` puts it together.

Numbers are given to sources as they come, so a source that is loaded later may have another number if more
sources were loaded before it. Runs are compared by `Session.outcome`, which shows the source itself.
-/

namespace Multistage

namespace Session

/-! ## Runs -/

/-- What happens in a run. -/
inductive Event where
  /-- the files are changed into these -/
  | change (files : Files)
  | load (name : String) (mode : Mode)

/-- The session after an event. -/
def step (s : Session) : Event → Session
  | .change files => { s with files }
  | .load name mode => (s.load name mode).2

/-- The session after events, the first one first. -/
def after (s : Session) (events : List Event) : Session := events.foldl step s

/-- A session that has loaded nothing. -/
def start (files : Files) : Session := { files }

/-- The source of a number. -/
def source? (s : Session) (index : Nat) : Option Source := s.cells[index]?.map (·.source)

/-- In the course of events a load has given this source for a path. -/
def Succeeded (files : Files) (events : List Event) (path : Path) (mode : Mode) (index : Nat) : Prop :=
  ∃ earlier name later, events = earlier ++ .load name mode :: later ∧
    (((start files).after earlier).load name mode).1 = .ok (index, path)

variable {s : Session} {name : String} {path : Path} {mode : Mode} {index : Nat}

theorem after_append (s : Session) (events more : List Event) :
    s.after (events ++ more) = (s.after events).after more :=
  List.foldl_append

/-- What every event keeps, a run keeps. -/
theorem after_induction {motive : Session → Prop} (hstep : ∀ s event, motive s → motive (s.step event))
    (hs : motive s) (events : List Event) : motive (s.after events) := by
  induction events generalizing s with
  | nil => exact hs
  | cons event later ih => exact ih (hstep s event hs)

/-! ## One load -/

/-- The session with one more source. -/
def keep (s : Session) (path : Path) (mode : Mode) (program : Program) : Session :=
  { (s.add ⟨program, mode⟩).2 with loaded := ((path, mode), s.cells.length) :: s.loaded }

theorem load_of_error {e : LoadError} (hpath : s.files.locate name = .error e) :
    s.load name mode = (.error e, s) := by
  rw [load, hpath]

theorem load_of_loaded (hpath : s.files.locate name = .ok path) (h : s.loaded? path mode = some index) :
    s.load name mode = (.ok (index, path), s) := by
  rw [load, hpath]
  dsimp only
  rw [h]

theorem load_of_unreadable {e : LoadError} (hpath : s.files.locate name = .ok path)
    (h : s.loaded? path mode = none) (hprogram : s.files.program path = .error e) :
    s.load name mode = (.error e, s) := by
  rw [load, hpath]
  dsimp only
  rw [h, hprogram]

theorem load_of_read {program : Program} (hpath : s.files.locate name = .ok path)
    (h : s.loaded? path mode = none) (hprogram : s.files.program path = .ok program) :
    s.load name mode = (.ok (s.cells.length, path), s.keep path mode program) := by
  rw [load, hpath]
  dsimp only
  rw [h, hprogram]
  rfl

/-- What a load can do. It fails and changes nothing, for lack of a path or because the file holds no program;
it finds what is remembered; or it reads the file and remembers it. -/
theorem load_cases (s : Session) (name : String) (mode : Mode) :
    (∃ e, s.load name mode = (.error e, s) ∧
      ∀ path, s.files.locate name = .ok path → s.loaded? path mode = none) ∨
    (∃ path index, s.files.locate name = .ok path ∧ s.loaded? path mode = some index ∧
      s.load name mode = (.ok (index, path), s)) ∨
    ∃ path program, s.files.locate name = .ok path ∧ s.loaded? path mode = none ∧
      s.files.program path = .ok program ∧
      s.load name mode = (.ok (s.cells.length, path), s.keep path mode program) := by
  cases hpath : s.files.locate name with
  | error e =>
    refine .inl ⟨e, load_of_error hpath, ?_⟩
    intro path h
    cases h
  | ok path =>
    cases hloaded : s.loaded? path mode with
    | some index => exact .inr (.inl ⟨path, index, rfl, hloaded, load_of_loaded hpath hloaded⟩)
    | none =>
      cases hprogram : s.files.program path with
      | error e =>
        refine .inl ⟨e, load_of_unreadable hpath hloaded hprogram, ?_⟩
        intro path' h
        cases h
        exact hloaded
      | ok program =>
        exact .inr (.inr ⟨path, program, rfl, hloaded, hprogram, load_of_read hpath hloaded hprogram⟩)

theorem files_load (s : Session) (name : String) (mode : Mode) : (s.load name mode).2.files = s.files := by
  rcases s.load_cases name mode with ⟨e, h, -⟩ | ⟨path, index, -, -, h⟩ | ⟨path, program, -, -, -, h⟩
  · rw [h]
  · rw [h]
  · rw [h]
    rfl

/-- Keeping a program makes the newest source the one of its path and mode, and of no other. -/
theorem loaded?_keep (s : Session) (path path' : Path) (mode mode' : Mode) (program : Program) :
    (s.keep path mode program).loaded? path' mode' =
      if (path, mode) = (path', mode') then some s.cells.length else s.loaded? path' mode' := by
  unfold loaded? keep
  rw [List.find?_cons]
  by_cases hkey : (path, mode) = (path', mode')
  · simp [hkey]
  · simp [hkey]

theorem source?_keep_self (s : Session) (path : Path) (mode : Mode) (program : Program) :
    (s.keep path mode program).source? s.cells.length = some ⟨program, mode⟩ := by
  unfold source? keep add
  rw [List.getElem?_concat_length]
  rfl

/-- Sources that are there stay as they are when another one is kept. -/
theorem source?_keep_of_some {source : Source} (h : s.source? index = some source) (path : Path) (mode : Mode)
    (program : Program) : (s.keep path mode program).source? index = some source := by
  unfold source? at h
  obtain ⟨cell, hcell, rfl⟩ := Option.map_eq_some_iff.1 h
  have hlt : index < s.cells.length := (List.getElem?_eq_some_iff.1 hcell).1
  unfold source? keep add
  rw [List.getElem?_append_left hlt, hcell]
  rfl

/-! ## What is remembered -/

/-- What an event can do: only the files may have changed, or one more source is remembered. -/
theorem step_cases (s : Session) (event : Event) :
    (∃ files, s.step event = { s with files }) ∨
      ∃ path mode program, s.loaded? path mode = none ∧ s.step event = s.keep path mode program := by
  cases event with
  | change files => exact .inl ⟨files, rfl⟩
  | load name mode =>
    rw [step]
    rcases s.load_cases name mode with ⟨e, h, -⟩ | ⟨path, index, -, -, h⟩ | ⟨path, program, -, hnone, -, h⟩
    · exact .inl ⟨s.files, by rw [h]⟩
    · exact .inl ⟨s.files, by rw [h]⟩
    · exact .inr ⟨path, mode, program, hnone, by rw [h]⟩

/-- What is remembered about a path stays. -/
theorem loaded?_step (h : s.loaded? path mode = some index) (event : Event) :
    (s.step event).loaded? path mode = some index := by
  rcases s.step_cases event with ⟨files, hstep⟩ | ⟨path', mode', program, hnone, hstep⟩
  · rw [hstep]
    exact h
  · rw [hstep, loaded?_keep, if_neg, h]
    -- the path of the new source was not known
    intro hkey
    cases hkey
    rw [h] at hnone
    cases hnone

theorem loaded?_after (h : s.loaded? path mode = some index) (events : List Event) :
    (s.after events).loaded? path mode = some index :=
  after_induction (motive := fun s => s.loaded? path mode = some index)
    (fun _ event h => loaded?_step h event) h events

/-- No source is changed. -/
theorem source?_step {source : Source} (h : s.source? index = some source) (event : Event) :
    (s.step event).source? index = some source := by
  rcases s.step_cases event with ⟨files, hstep⟩ | ⟨path', mode', program, -, hstep⟩
  · rw [hstep]
    exact h
  · rw [hstep]
    exact source?_keep_of_some h path' mode' program

theorem source?_after {source : Source} (h : s.source? index = some source) (events : List Event) :
    (s.after events).source? index = some source :=
  after_induction (motive := fun s => s.source? index = some source)
    (fun _ event h => source?_step h event) h events

/-- What is remembered leads to a source. -/
def Sound (s : Session) : Prop :=
  ∀ path mode index, s.loaded? path mode = some index → ∃ source, s.source? index = some source

theorem sound_start (files : Files) : (start files).Sound := by
  intro path mode index h
  cases h

/-- An event keeps a session sound. -/
theorem Sound.step (h : s.Sound) (event : Event) : (s.step event).Sound := by
  rcases s.step_cases event with ⟨files, hstep⟩ | ⟨path', mode', program, -, hstep⟩
  · rw [hstep]
    exact h
  · rw [hstep]
    intro path mode index hindex
    rw [loaded?_keep] at hindex
    split at hindex
    · cases hindex
      exact ⟨_, s.source?_keep_self path' mode' program⟩
    · obtain ⟨source, hsource⟩ := h path mode index hindex
      exact ⟨source, source?_keep_of_some hsource path' mode' program⟩

theorem Sound.after (h : s.Sound) (events : List Event) : (s.after events).Sound :=
  after_induction (fun _ event h => h.step event) h events

/-- A load that succeeds is remembered. -/
theorem loaded?_of_load (h : (s.load name mode).1 = .ok (index, path)) :
    (s.load name mode).2.loaded? path mode = some index := by
  rcases s.load_cases name mode with ⟨e, hload, -⟩ | ⟨path', index', -, hloaded, hload⟩ |
    ⟨path', program, -, -, -, hload⟩
  · rw [hload] at h
    cases h
  · rw [hload] at h ⊢
    cases h
    exact hloaded
  · rw [hload] at h ⊢
    cases h
    rw [loaded?_keep, if_pos rfl]

/-- What is remembered is what has been loaded. -/
theorem loaded?_iff {files : Files} {events : List Event} :
    ((start files).after events).loaded? path mode = some index ↔ Succeeded files events path mode index := by
  constructor
  · intro h
    induction events using List.reverseRecOn with
    | nil => cases h
    | append_singleton events event ih =>
      -- what was remembered before the last event goes back to an earlier load
      have hmore : ((start files).after events).loaded? path mode = some index →
          Succeeded files (events ++ [event]) path mode index := by
        intro hold
        obtain ⟨earlier, name, later, rfl, hload⟩ := ih hold
        exact ⟨earlier, name, later ++ [event], by simp, hload⟩
      rw [after_append] at h
      cases event with
      | change files' => exact hmore h
      | load name mode' =>
        change ((((start files).after events).load name mode').2).loaded? path mode = some index at h
        rcases ((start files).after events).load_cases name mode' with ⟨e, hload, -⟩ |
          ⟨path', index', -, -, hload⟩ | ⟨path', program, -, -, -, hload⟩
        · rw [hload] at h
          exact hmore h
        · rw [hload] at h
          exact hmore h
        · rw [hload, loaded?_keep] at h
          split at h
          · next hkey =>
            -- the load that the last event made is the one in question
            cases hkey
            cases h
            exact ⟨events, name, [], rfl, by rw [hload]⟩
          · exact hmore h
  · rintro ⟨earlier, name, later, rfl, hload⟩
    -- a load is remembered from then on
    have hthen := loaded?_of_load hload
    rw [after_append]
    exact loaded?_after hthen later

theorem loaded?_eq_none {files : Files} {events : List Event}
    (h : ∀ index, ¬ Succeeded files events path mode index) :
    ((start files).after events).loaded? path mode = none := by
  cases hloaded : ((start files).after events).loaded? path mode with
  | none => rfl
  | some index => exact absurd (loaded?_iff.1 hloaded) (h index)

/-! ## Loads of one path in one mode -/

/-- The source that is remembered for a path. -/
def unit? (s : Session) (path : Path) (mode : Mode) : Option Source := (s.loaded? path mode).bind s.source?

/-- What a load shows: an error, or the path and the source. -/
def outcome (s : Session) (name : String) (mode : Mode) : Except LoadError (Path × Option Source) :=
  (s.load name mode).1.map fun found => (found.2, (s.load name mode).2.source? found.1)

/-- The events that bear on a path and a mode: the changes of the files, and the loads of this path in this
mode. -/
def bearing (path : Path) (mode : Mode) : Files → List Event → List Event
  | _, [] => []
  | _, .change files :: later => .change files :: bearing path mode files later
  | files, .load name mode' :: later =>
    if files.locate name = .ok path ∧ mode' = mode then
      .load name mode' :: bearing path mode files later
    else bearing path mode files later

theorem unit?_eq_none (hs : s.Sound) (h : s.unit? path mode = none) : s.loaded? path mode = none := by
  cases hloaded : s.loaded? path mode with
  | none => rfl
  | some index =>
    obtain ⟨source, hsource⟩ := hs path mode index hloaded
    rw [unit?, hloaded, Option.bind_some, hsource] at h
    cases h

/-- A load shows what is remembered for the path, or else what the file holds. -/
theorem outcome_eq (hs : s.Sound) (name : String) (mode : Mode) :
    s.outcome name mode = (s.files.locate name).bind fun path =>
      (s.unit? path mode).elim ((s.files.program path).map fun program => (path, some ⟨program, mode⟩))
        fun source => .ok (path, some source) := by
  unfold outcome
  cases hpath : s.files.locate name with
  | error e =>
    rw [load_of_error hpath]
    rfl
  | ok path =>
    change _ = (s.unit? path mode).elim _ _
    cases hunit : s.unit? path mode with
    | some source =>
      rw [unit?, Option.bind_eq_some_iff] at hunit
      obtain ⟨index, hloaded, hsource⟩ := hunit
      rw [load_of_loaded hpath hloaded]
      exact congrArg (fun found => Except.ok (path, found)) hsource
    | none =>
      have hloaded := unit?_eq_none hs hunit
      cases hprogram : s.files.program path with
      | error e =>
        rw [load_of_unreadable hpath hloaded hprogram]
        rfl
      | ok program =>
        rw [load_of_read hpath hloaded hprogram]
        exact congrArg (fun found => Except.ok (path, found)) (s.source?_keep_self path mode program)

/-- A load of another path or in another mode does not change what is remembered. -/
theorem unit?_load_of_ne {mode' : Mode} (hs : s.Sound)
    (hne : ¬ (s.files.locate name = .ok path ∧ mode' = mode)) :
    (s.load name mode').2.unit? path mode = s.unit? path mode := by
  rcases s.load_cases name mode' with ⟨e, hload, -⟩ | ⟨path', index', -, -, hload⟩ |
    ⟨path', program, hpath, -, -, hload⟩
  · rw [hload]
  · rw [hload]
  · rw [hload, unit?, loaded?_keep, if_neg, unit?]
    · cases hloaded : s.loaded? path mode with
      | none => rfl
      | some index =>
        obtain ⟨source, hsource⟩ := hs path mode index hloaded
        exact (source?_keep_of_some hsource path' mode' program).trans hsource.symm
    · intro hkey
      cases hkey
      exact hne ⟨hpath, rfl⟩

/-- A load remembers what it shows, and shows it again. -/
theorem unit?_load (hs : s.Sound) (hpath : s.files.locate name = .ok path) :
    (s.load name mode).2.unit? path mode =
      (s.unit? path mode).or ((s.files.program path).toOption.map fun program => ⟨program, mode⟩) := by
  cases hunit : s.unit? path mode with
  | some source =>
    have hkept := hunit
    rw [unit?, Option.bind_eq_some_iff] at hunit
    obtain ⟨index, hloaded, -⟩ := hunit
    rw [load_of_loaded hpath hloaded, hkept]
    rfl
  | none =>
    have hloaded := unit?_eq_none hs hunit
    cases hprogram : s.files.program path with
    | error e =>
      rw [load_of_unreadable hpath hloaded hprogram, hunit]
      rfl
    | ok program =>
      rw [load_of_read hpath hloaded hprogram, unit?, loaded?_keep, if_pos rfl]
      exact s.source?_keep_self path mode program

/-- Two sessions with the same files that remember the same for one path and mode. -/
structure Alike (path : Path) (mode : Mode) (s s' : Session) : Prop where
  files : s.files = s'.files
  unit : s.unit? path mode = s'.unit? path mode
  left : s.Sound
  right : s'.Sound

theorem Alike.outcome {s' : Session} (h : Alike path mode s s') (hpath : s.files.locate name = .ok path) :
    s.outcome name mode = s'.outcome name mode := by
  have hpath' : s'.files.locate name = .ok path := h.files ▸ hpath
  rw [outcome_eq h.left, outcome_eq h.right, hpath, hpath', ← h.files]
  change (s.unit? path mode).elim _ _ = (s'.unit? path mode).elim _ _
  rw [h.unit]

/-- Without the loads that do not bear on a path and a mode the same is remembered for them. -/
theorem Alike.after {s' : Session} (h : Alike path mode s s') (events : List Event) :
    Alike path mode (s.after events) (s'.after (bearing path mode s.files events)) := by
  induction events generalizing s s' with
  | nil => exact h
  | cons event later ih =>
    cases event with
    | change files => exact ih (s := s.step (.change files)) ⟨rfl, h.unit, h.left, h.right⟩
    | load name mode' =>
      rw [bearing]
      have hfiles := files_load s name mode'
      have hleft := h.left.step (.load name mode')
      split
      · next hkey =>
        -- both sessions make the load
        obtain ⟨hpath, rfl⟩ := hkey
        have hpath' : s'.files.locate name = .ok path := h.files ▸ hpath
        have hboth : Alike path mode' (s.load name mode').2 (s'.load name mode').2 := by
          refine ⟨?_, ?_, hleft, h.right.step (.load name mode')⟩
          · rw [hfiles, files_load, h.files]
          · rw [unit?_load h.left hpath, unit?_load h.right hpath', h.unit, h.files]
        rw [← hfiles]
        exact ih hboth
      · next hne =>
        -- only the first session makes the load, which does not bear on the path
        have hone : Alike path mode (s.load name mode').2 s' :=
          ⟨hfiles.trans h.files, (unit?_load_of_ne h.left hne).trans h.unit, hleft, h.right⟩
        rw [← hfiles]
        exact ih hone

/-- A file that holds a program can be loaded. -/
theorem exists_load {program : Program} (mode : Mode) (hpath : s.files.locate name = .ok path)
    (hprogram : s.files.program path = .ok program) :
    ∃ index s', s.load name mode = (.ok (index, path), s') ∧
      (s.loaded? path mode = none → s'.source? index = some ⟨program, mode⟩) := by
  cases hloaded : s.loaded? path mode with
  | some index =>
    refine ⟨index, s, load_of_loaded hpath hloaded, ?_⟩
    intro hnone
    cases hnone
  | none =>
    refine ⟨_, _, load_of_read hpath hloaded hprogram, ?_⟩
    intro _
    exact s.source?_keep_self path mode program

/-! ## The main result -/

/-- What a load has given is given again, and has not changed. -/
theorem load_again {s₁ : Session} {name' : String} (hs : s.Sound)
    (hfirst : s.load name' mode = (.ok (index, path), s₁)) (later : List Event)
    (hpath : (s₁.after later).files.locate name = .ok path) :
    (s₁.after later).load name mode = (.ok (index, path), s₁.after later) ∧
      ∃ source, s₁.source? index = some source ∧ (s₁.after later).source? index = some source := by
  have hloaded : s₁.loaded? path mode = some index := by
    have h := loaded?_of_load (congrArg Prod.fst hfirst)
    rwa [hfirst] at h
  have hs₁ : s₁.Sound := by
    have h := hs.step (.load name' mode)
    rwa [Session.step, hfirst] at h
  obtain ⟨source, hsource⟩ := hs₁ path mode index hloaded
  exact ⟨load_of_loaded hpath (loaded?_after hloaded later), source, hsource, source?_after hsource later⟩

/-- A load that fails leaves no trace. If the file is put right it can be loaded; it is read unless it was
loaded before, which a load that fails to read the file rules out. -/
theorem load_repaired {e : LoadError} (hfails : (s.load name mode).1 = .error e) :
    (s.load name mode).2 = s ∧
    ∀ files path program, files.locate name = .ok path → files.program path = .ok program →
      ∃ index s', (s.after [.load name mode, .change files]).load name mode = (.ok (index, path), s') ∧
        (s.files.locate name = .ok path ∨ s.loaded? path mode = none →
          s'.source? index = some ⟨program, mode⟩) := by
  rcases s.load_cases name mode with ⟨e', hload, hnone⟩ | ⟨path, index, -, -, hload⟩ |
    ⟨path, program, -, -, -, hload⟩
  · refine ⟨by rw [hload], ?_⟩
    intro files path program hpath hprogram
    have hafter : s.after [.load name mode, .change files] = { s with files } := by
      change (s.load name mode).2.step (.change files) = _
      rw [hload]
      rfl
    rw [hafter]
    obtain ⟨index, s', hagain, hsource⟩ := exists_load (s := { s with files }) mode hpath hprogram
    refine ⟨index, s', hagain, ?_⟩
    rintro (hsame | hunloaded)
    · exact hsource (hnone path hsame)
    · exact hsource hunloaded
  · rw [hload] at hfails
    cases hfails
  · rw [hload] at hfails
    cases hfails

/-- Loads are consistent, whatever files are changed and loaded in between. A load of a file that is there
gives the source that an earlier load of its path in this mode has given, and the source is still what it was
then. A load that fails leaves the session as it is; once the file is put right it can be loaded, and it gives
what it holds then, unless the name denoted nothing before and the path had been loaded already: then the
first rule applies. After any run the same holds of a file that has not been loaded. Loads of other paths and
in other modes make no difference. -/
theorem loads_are_consistent (files : Files) (events : List Event) (name : String) (mode : Mode) :
    let s := (start files).after events
    (∀ earlier name' later path index s₁, events = earlier ++ .load name' mode :: later →
      ((start files).after earlier).load name' mode = (.ok (index, path), s₁) →
      s.files.locate name = .ok path →
      s.load name mode = (.ok (index, path), s) ∧
        ∃ source, s₁.source? index = some source ∧ s.source? index = some source) ∧
    (∀ e, (s.load name mode).1 = .error e → (s.load name mode).2 = s ∧
      ∀ files' path program, files'.locate name = .ok path → files'.program path = .ok program →
        ∃ index s', (s.after [.load name mode, .change files']).load name mode = (.ok (index, path), s') ∧
          (s.files.locate name = .ok path ∨ (∀ index, ¬ Succeeded files events path mode index) →
            s'.source? index = some ⟨program, mode⟩)) ∧
    (∀ path program, s.files.locate name = .ok path → s.files.program path = .ok program →
      ∃ index s', s.load name mode = (.ok (index, path), s') ∧
        ((∀ index, ¬ Succeeded files events path mode index) →
          s'.source? index = some ⟨program, mode⟩)) ∧
    (∀ e, s.files.locate name = .error e → s.outcome name mode = .error e) ∧
    ∀ path, s.files.locate name = .ok path →
      s.outcome name mode = ((start files).after (bearing path mode files events)).outcome name mode := by
  intro s
  refine ⟨?_, ?_, ?_, ?_, ?_⟩
  · intro earlier name' later path index s₁ hevents hfirst hpath
    -- what the earlier load leaves is where the later events start
    have hrest : s = s₁.after later := by
      change (start files).after events = _
      rw [hevents, after_append]
      exact congrArg (·.after later) (congrArg Prod.snd hfirst)
    rw [hrest] at hpath ⊢
    exact load_again ((sound_start files).after earlier) hfirst later hpath
  · intro e hfails
    -- a load that fails enters nothing in the cache
    obtain ⟨hsame, hrepaired⟩ := load_repaired hfails
    refine ⟨hsame, ?_⟩
    intro files' path program hpath hprogram
    obtain ⟨index, s', hload, hsource⟩ := hrepaired files' path program hpath hprogram
    exact ⟨index, s', hload, fun hwhy => hsource (hwhy.imp_right loaded?_eq_none)⟩
  · intro path program hpath hprogram
    obtain ⟨index, s', hload, hsource⟩ := exists_load mode hpath hprogram
    exact ⟨index, s', hload, fun hnever => hsource (loaded?_eq_none hnever)⟩
  · intro e hpath
    rw [outcome, load_of_error hpath]
    rfl
  · intro path hpath
    -- sessions that agree on the path and the mode stay so when other loads are left out
    have hsame : Alike path mode (start files) (start files) :=
      ⟨rfl, rfl, sound_start files, sound_start files⟩
    exact (hsame.after events).outcome hpath

/-- One file, which can be named from the root and from the directory that it is in. -/
def oneFile (text : String) : Files where
  canonicalize name := if name = "/d/a" ∨ name = "a" then .ok "/d/a" else .error .notFound
  read path := if path = "/d/a" then .ok text.toUTF8 else .error .notFound

/-- The file holds a program. -/
def repaired : Files := oneFile (Term.lookup ⟨7, {}⟩ "x").jsonText

/-- A file that is broken at first, is loaded by its path when it has been put right, and is then emptied. By
its other name it still gives the same source. -/
theorem loads_are_consistent_repaired :
    let s := (start (oneFile "[]")).after
      [.load "/d/a" .general, .change repaired, .load "/d/a" .general, .change (oneFile "")]
    ∃ program index, repaired.program "/d/a" = .ok program ∧ program.root.id = 7 ∧
      s.load "a" .general = (.ok (index, "/d/a"), s) ∧ s.source? index = some ⟨program, .general⟩ := by
  intro s
  obtain ⟨program, hprogram, hid⟩ : ∃ p, repaired.program "/d/a" = .ok p ∧ p.root.id = 7 := by
    have hsome : (repaired.program "/d/a").toOption.map (·.root.id) = some 7 := by decide +kernel
    cases h : repaired.program "/d/a" with
    | error e =>
      rw [h] at hsome
      cases hsome
    | ok p =>
      rw [h] at hsome
      exact ⟨p, rfl, Option.some.inj hsome⟩
  obtain ⟨e, hbroken⟩ : ∃ e, (oneFile "[]").program "/d/a" = .error e := by
    have hnone : ((oneFile "[]").program "/d/a").toOption.isSome = false := by decide +kernel
    cases h : (oneFile "[]").program "/d/a" with
    | error e => exact ⟨e, rfl⟩
    | ok p =>
      rw [h] at hnone
      cases hnone
  have hpath : (start (oneFile "[]")).files.locate "/d/a" = .ok "/d/a" := rfl
  have hfails : ((start (oneFile "[]")).load "/d/a" .general).1 = .error e := by
    rw [load_of_unreadable hpath rfl hbroken]
  obtain ⟨index, s₁, hfirst, hsource⟩ :=
    ((loads_are_consistent (oneFile "[]") [] "/d/a" .general).2.1 e hfails).2 repaired "/d/a" program rfl hprogram
  have hpath' : s.files.locate "a" = .ok "/d/a" := by
    have hfiles : s.files = oneFile "" := rfl
    rw [hfiles]
    rfl
  obtain ⟨hagain, source, hthen, hnow⟩ := (loads_are_consistent (oneFile "[]")
    [.load "/d/a" .general, .change repaired, .load "/d/a" .general, .change (oneFile "")] "a" .general).1
    [.load "/d/a" .general, .change repaired] "/d/a" [.change (oneFile "")] "/d/a" index s₁ rfl hfirst hpath'
  have hsame : some source = some ⟨program, .general⟩ := hthen.symm.trans (hsource (.inl hpath))
  exact ⟨program, index, hprogram, hid, hagain, hnow.trans hsame⟩

end Session

end Multistage
