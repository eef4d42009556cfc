import Mathlib.Logic.Function.Basic
import NameServerConf.Proofs.Editing

/-!
# What a run does to the files

**Disks.**  A script says what is read and written, and leaves open where.  `Script.runOn` runs it on
any `Disk`: on a folder, which is what `Script.run` does (`Script.runOn_folder`), or on a map from
paths to contents in which some files cannot be opened for writing.

**Commands.**  `Command.change?` says what a command makes of a configuration, if it is one that
changes it.  A command writes nothing before that is known, and writes once and last of all if there
is a change (`CarriesOut`).

**Runs.**  So a run either leaves all files alone, or is an `Edit` and puts the changed configuration
into the file that the settings name; only then does it depend on the disk whether the run succeeds
(`run_spares_files`).
-/

namespace NameServerConf

/-! ## Disks -/

/-- Where files are: what is read at a path, and what the files are after a text was written to one.
    If that fails they are what they were. -/
structure Disk (σ : Type) where
  read? : σ → Text → Option Text
  write : σ → Text → Text → Except FileError σ

namespace Disk

variable {σ : Type}

/-- A folder. -/
def folder : Disk Folder := ⟨Folder.read?, Folder.write⟩

/-- Files as a map from paths to contents.  Writing replaces the content of a file, unless the file
    refuses to be opened for that. -/
def files (refuses : Text → Text → Option FileError) : Disk (Text → Option Text) where
  read? files path := files path
  write files path content :=
    match refuses path content with
    | some e => .error e
    | none => .ok (Function.update files path (some content))

/-- What comes of writing a file under a name, if there is one: why that failed, if it did, and the
    files after it. -/
def store (disk : Disk σ) (s : σ) (path content : Text) : Option FileError × σ :=
  if path = [] then (some .noName, s)
  else
    match disk.write s path content with
    | .ok after => (none, after)
    | .error e => (some e, s)

section Files

variable {refuses : Text → Text → Option FileError} {files : Text → Option Text} {path content : Text}

lemma store_files (hpath : path ≠ []) (h : refuses path content = none) :
    (Disk.files refuses).store files path content =
      (none, Function.update files path (some content)) := by
  rw [store, if_neg hpath, Disk.files]
  dsimp only
  rw [h]

lemma eq_update_of_write {after : Text → Option Text}
    (h : (Disk.files refuses).write files path content = .ok after) :
    after = Function.update files path (some content) := by
  rw [Disk.files] at h
  dsimp only at h
  split at h
  · cases h
  · exact (Except.ok.inj h).symm

end Files

end Disk

/-! ## Scripts on disks -/

namespace Script

variable {σ α β : Type} {disk : Disk σ}

/-- Runs a script: its result, and the files after it. -/
def runOn (disk : Disk σ) : Script α → σ → α × σ
  | .done a, s => (a, s)
  | .read path next, s => (next (disk.read? s path)).runOn disk s
  | .write path content next, s =>
    match disk.write s path content with
    | .ok after => (next none).runOn disk after
    | .error e => (next (some e)).runOn disk s
  | .print _ _ next, s => next.runOn disk s

lemma runOn_bind (x : Script α) (f : α → Script β) (s : σ) :
    (x >>= f).runOn disk s = (f (x.runOn disk s).1).runOn disk (x.runOn disk s).2 := by
  induction x generalizing s with
  | done a => rfl
  | read path next ih => exact ih _ _
  | print stream text next ih => exact ih _
  | write path content next ih =>
      show (Script.write path content fun error => next error >>= f).runOn disk s = _
      rw [runOn, runOn]
      cases disk.write s path content with
      | ok after => exact ih _ _
      | error e => exact ih _ _

/-- A folder is a disk like others. -/
theorem runOn_folder (x : Script α) (folder : Folder) (printed : Printed) :
    x.runOn Disk.folder folder = ((x.run folder printed).1, (x.run folder printed).2.1) := by
  induction x generalizing folder printed with
  | done a => rfl
  | read path next ih => exact ih _ _ _
  | print stream text next ih => exact ih _ _
  | write path content next ih =>
      have hwrite : Disk.folder.write folder path content = folder.write path content := rfl
      rw [runOn, run, hwrite]
      cases folder.write path content with
      | ok after => exact ih _ _ _
      | error e => exact ih _ _ _

/-- A script that writes nothing. -/
def IsReadOnly : Script α → Prop
  | .done _ => True
  | .read _ next => ∀ content, (next content).IsReadOnly
  | .write _ _ _ => False
  | .print _ _ next => next.IsReadOnly

lemma isReadOnly_pure (a : α) : (pure a : Script α).IsReadOnly := trivial

lemma isReadOnly_say (text : Text) : (say text).IsReadOnly := trivial

lemma isReadOnly_warn (text : Text) : (warn text).IsReadOnly := trivial

lemma IsReadOnly.bind {x : Script α} {f : α → Script β} (hx : x.IsReadOnly)
    (hf : ∀ a, (f a).IsReadOnly) : (x >>= f).IsReadOnly := by
  induction x with
  | done a => exact hf a
  | read path next ih => exact fun content => ih content (hx content)
  | print stream text next ih => exact ih hx
  | write path content next ih => exact absurd hx id

/-- Such a script leaves all files alone. -/
theorem IsReadOnly.runOn_snd {x : Script α} (hx : x.IsReadOnly) (s : σ) :
    (x.runOn disk s).2 = s := by
  induction x with
  | done a => rfl
  | read path next ih => exact ih _ (hx _)
  | print stream text next ih => exact ih hx
  | write path content next ih => exact absurd hx id

end Script

lemma Document.runOn_save {σ : Type} {disk : Disk σ} (ns : List Node) (path : Text) (s : σ) :
    (save ⟨ns, some path⟩ []).runOn disk s = disk.store s path (Node.renderFile ns) := by
  have htarget : target ⟨ns, some path⟩ [] = path := rfl
  rw [save, htarget, Disk.store]
  split
  next => rfl
  next =>
    rw [Script.writeFile, Script.runOn, Document.text]
    cases disk.write s path (Node.renderFile ns) with
    | ok after => rfl
    | error e => rfl

/-- A file that was taken up is written with the configuration put into it, if it can be written. -/
lemma Session.runOn_save {σ : Type} {disk : Disk σ} (placement : Placement) (c : Config)
    (ns : List Node) (path : Text) (s : σ) :
    (save placement [] ⟨c, some ⟨ns, some path⟩⟩).runOn disk s =
      let stored := disk.store s path (Node.renderFile (c.apply placement ns).value)
      (⟨⟨c, some ⟨(c.apply placement ns).value, some path⟩⟩,
        (c.apply placement ns).remarks ++ stored.1.elim [.saved path] fun _ => [],
        stored.1.elim (.ok ()) fun e => .error (.file e)⟩, stored.2) := by
  rw [save, apply]
  dsimp only
  rw [Script.runOn_bind, Document.runOn_save]
  cases (disk.store s path (Node.renderFile (c.apply placement ns).value)).1 with
  | none => rfl
  | some e => rw [Option.elim_some, Option.elim_some, List.append_nil]; rfl

namespace Tool

open Script

variable {σ : Type} {disk : Disk σ} {p : Preferences}

/-! ## The file of the settings -/

lemma isReadOnly_remarked (p : Preferences) (remarks : List Remark) :
    (remarked p remarks).IsReadOnly := isReadOnly_warn _

lemma isReadOnly_refuse (complaint : Text) : (refuse complaint).IsReadOnly :=
  (isReadOnly_warn _).bind fun _ => isReadOnly_pure _

lemma isReadOnly_fail (message : Text) : (fail message).IsReadOnly :=
  (isReadOnly_warn _).bind fun _ => isReadOnly_pure _

lemma isReadOnly_say_success (text : Text) : (do say text; pure Exit.success).IsReadOnly :=
  (isReadOnly_say _).bind fun _ => isReadOnly_pure _

/-- How a run ends whose last thing is to write a file. -/
def Exit.ofError : Option FileError → Exit
  | none => .success
  | some _ => .failure

/-- The file that was read, and what it says. -/
def opened (p : Preferences) (t : Text) : Session :=
  ⟨(Config.ofNodes p.unknown (Node.parse t)).value, some ⟨Node.parse t, some p.path⟩⟩

/-- The text of a file with a configuration put into it. -/
def written (p : Preferences) (t : Text) (c : Config) : Text :=
  Node.renderFile (c.apply p.placement (Node.parse t)).value

lemma runOn_load (s : σ) : (Session.load p.unknown p.path Session.empty).runOn disk s =
    (match disk.read? s p.path with
      | some t => ⟨opened p t, (Config.ofNodes p.unknown (Node.parse t)).remarks, .ok ()⟩
      | none => ⟨Session.empty, [], .error (.file (.cannotRead p.path))⟩, s) := by
  rw [Session.load, Document.load]
  simp only [runOn_bind]
  have hread : (readFile p.path).runOn disk s = (disk.read? s p.path, s) := rfl
  rw [hread]
  cases disk.read? s p.path with
  | none => rfl
  | some t =>
      have hremarks : (Session.ofDocument p.unknown ⟨Node.parse t, some p.path⟩).remarks =
          (Config.ofNodes p.unknown (Node.parse t)).remarks := List.append_nil _
      dsimp only
      rw [← hremarks]
      rfl

/-- What is done with the file of the settings, if it can be read. -/
lemma runOn_withSession (disk : Disk σ) (next : Session → List Remark → Script Exit) (s : σ) :
    (∃ t, disk.read? s p.path = some t ∧ (withSession p next).runOn disk s =
        (next (opened p t) (Config.ofNodes p.unknown (Node.parse t)).remarks).runOn disk s) ∨
      (disk.read? s p.path = none ∧ ((withSession p next).runOn disk s).2 = s) := by
  rw [withSession, runOn_bind, runOn_load]
  cases hread : disk.read? s p.path with
  | none => exact Or.inr ⟨rfl, rfl⟩
  | some t => exact Or.inl ⟨t, rfl, rfl⟩

/-- Saving writes the file of the settings, and succeeds if that does. -/
lemma runOn_save (t : Text) (c : Config) (s : σ) :
    (save p { opened p t with config := c }).runOn disk s =
      (.ofError (disk.store s p.path (written p t c)).1,
        (disk.store s p.path (written p t c)).2) := by
  have hsession : ({ opened p t with config := c } : Session) =
      ⟨c, some ⟨Node.parse t, some p.path⟩⟩ := rfl
  rw [save, hsession, runOn_bind, Session.runOn_save, ← written]
  dsimp only
  cases (disk.store s p.path (written p t c)).1 with
  | none => rfl
  | some e => rfl

/-! ## Commands -/

/-- The commands that change the configuration. -/
def Command.editing : List Command :=
  [.addTrustAnchor, .addView, .addZone, .normalize, .removeView, .removeZone, .setRecursion]

/-- What a command makes of a configuration, if it is one that changes it, its arguments can be used
    and there is what is to be removed. -/
def Command.change? : Command → List Text → Config → Option Config
  | .addTrustAnchor, view :: name :: type :: data :: more, c =>
    (TrustAnchor.read? (Text.phrase (name.quote :: type :: data :: more))).value.map fun a =>
      c.setTrustAnchorsInView view
        ⟨((c.view? view).bind (·.trustAnchors)).elim [] (·.items) ++ [a]⟩
  | .addView, name :: clients, c =>
    some (c.upsertView
      { (c.view? name).getD (View.empty name) with
        name := name
        matchClients :=
          if clients = [] then none else some (clients.map fun t => (MatchTerm.read t).value) })
  | .addZone, [name, type, file], c =>
    (ZoneType.ofWord? type.lower).map fun kind => c.upsertZone (.ofFile name kind file)
  | .addZone, [name, type, file, view], c =>
    (ZoneType.ofWord? type.lower).map fun kind => c.upsertZoneInView view (.ofFile name kind file)
  | .normalize, [], c => some c
  | .removeView, [name], c => if c.hasView name then some (c.removeView name) else none
  | .removeZone, [name], c => if c.hasZone name then some (c.removeZone name) else none
  | .removeZone, [name, view], c =>
    if c.hasZoneInView view name then some (c.removeZoneInView view name) else none
  | .setRecursion, [word], c => word.readYesNo?.map c.setRecursion
  | _, _, _ => none

lemma Command.mem_editing {command : Command} {args : List Text} {c changed : Config}
    (h : command.change? args c = some changed) : command ∈ editing := by
  cases command with
  | checkConf | listViews | listZones | showZone => cases h
  | _ => decide

/-- A script that carries out a change: either there is none and it writes nothing, or it reads the
    file of the settings and, if what it says is changed, saves that in the end. -/
inductive CarriesOut (p : Preferences) (change : Config → Option Config) : Script Exit → Prop
  | spare {x : Script Exit} : (∀ c, change c = none) → x.IsReadOnly → CarriesOut p change x
  | session {next : Session → List Remark → Script Exit} :
      (∀ s remarks, change s.config = none → (next s remarks).IsReadOnly) →
      (∀ s remarks changed, change s.config = some changed →
        ∃ before : Script Unit, before.IsReadOnly ∧
          next s remarks = before >>= fun _ => save p { s with config := changed }) →
      CarriesOut p change (withSession p next)

/-- A script that does nothing before it saves the change. -/
lemma CarriesOut.ofSave {change : Config → Option Config}
    {next : Session → List Remark → Script Exit}
    (hnone : ∀ s remarks, change s.config = none → (next s remarks).IsReadOnly)
    (hsome : ∀ s remarks changed, change s.config = some changed →
      next s remarks = save p { s with config := changed }) :
    CarriesOut p change (withSession p next) :=
  .session hnone fun s remarks changed h =>
    ⟨pure (), isReadOnly_pure _, hsome s remarks changed h⟩

/-- A script that always changes what the file says. -/
lemma carriesOut_edit {change? : Config → Option Config} {change : Config → Config}
    (h : ∀ c, change? c = some (change c)) : CarriesOut p change? (edit p change) := by
  refine .ofSave (fun s _ hnone => ?_) fun s _ changed hsome => ?_
  · rw [h] at hnone
    cases hnone
  · rw [h] at hsome
    obtain rfl := Option.some.inj hsome
    rfl

/-- A script that only looks at the file. -/
lemma carriesOut_look {next : Session → List Remark → Script Exit}
    (h : ∀ s remarks, (next s remarks).IsReadOnly) :
    CarriesOut p (fun _ => none) (withSession p next) :=
  .ofSave (fun s remarks _ => h s remarks) fun _ _ _ h => by cases h

lemma carriesOut_addTrustAnchor (p : Preferences) (view name type data : Text) (more : List Text) :
    CarriesOut p (Command.change? .addTrustAnchor (view :: name :: type :: data :: more))
      (addTrustAnchor p view name (type :: data :: more)) := by
  refine .session (fun s remarks h => ?_) fun s remarks changed h => ?_
  · rw [Command.change?, Option.map_eq_none_iff] at h
    dsimp only
    rw [h]
    exact (isReadOnly_remarked ..).bind fun _ => isReadOnly_refuse _
  · obtain ⟨a, ha, rfl⟩ := Option.map_eq_some_iff.mp h
    dsimp only
    rw [ha]
    exact ⟨_, isReadOnly_remarked .., rfl⟩

lemma carriesOut_addView (p : Preferences) (name : Text) (clients : List Text) :
    CarriesOut p (Command.change? .addView (name :: clients)) (addView p name clients) := by
  refine .session (fun s remarks h => ?_) fun s remarks changed h => ?_
  · cases h
  · obtain rfl := Option.some.inj h
    rw [← Noted.value_mapM]
    exact ⟨_, isReadOnly_remarked .., rfl⟩

/-- A zone is added only if there is a type of that name. -/
lemma carriesOut_addZone (p : Preferences) (name type file : Text) (view : Option Text) :
    CarriesOut p (Command.change? .addZone ([name, type, file] ++ view.toList))
      (addZone p name type file view) := by
  rw [addZone]
  cases hkind : ZoneType.ofWord? type.lower with
  | none =>
      refine .spare (fun c => ?_) (isReadOnly_refuse _)
      cases view <;> exact Option.map_eq_none_iff.mpr hkind
  | some kind =>
      have hkinds : ∀ f : ZoneType → Config, (ZoneType.ofWord? type.lower).map f = some (f kind) :=
        fun f => by rw [hkind, Option.map_some]
      cases view with
      | none => exact carriesOut_edit fun _ => hkinds _
      | some v => exact carriesOut_edit fun _ => hkinds _

/-- Something is removed only if it is there. -/
lemma carriesOut_ite {has : Config → Bool} {remove : Config → Config} {refusal : Script Exit}
    (h : refusal.IsReadOnly) :
    CarriesOut p (fun c => if has c then some (remove c) else none)
      (withSession p fun s _ =>
        if has s.config then save p { s with config := remove s.config } else refusal) := by
  refine .ofSave (fun s remarks hnone => ?_) fun s remarks changed hsome => ?_
  · split at hnone
    · cases hnone
    next hhas => rwa [if_neg hhas]
  · split at hsome
    next hhas =>
      obtain rfl := Option.some.inj hsome
      rw [if_pos hhas]
    · cases hsome

lemma carriesOut_removeZone (p : Preferences) (name : Text) (view : Option Text) :
    CarriesOut p (Command.change? .removeZone (name :: view.toList)) (removeZone p name view) := by
  cases view with
  | none => exact carriesOut_ite (isReadOnly_refuse _)
  | some v => exact carriesOut_ite (isReadOnly_refuse _)

lemma carriesOut_listZones (p : Preferences) (view : Option Text) :
    CarriesOut p (fun _ => none) (listZones p view) := by
  refine carriesOut_look fun s remarks => ?_
  cases view with
  | none => exact isReadOnly_say_success _
  | some name =>
      dsimp only
      cases s.config.view? name with
      | none => exact isReadOnly_refuse _
      | some v => exact isReadOnly_say_success _

lemma carriesOut_showZone (p : Preferences) (name : Text) :
    CarriesOut p (fun _ => none) (showZone p name) := by
  refine carriesOut_look fun s remarks => ?_
  cases s.config.zone? name with
  | none => exact isReadOnly_refuse _
  | some z => exact isReadOnly_say_success _

/-- **Every command** carries out what it makes of the configuration. -/
theorem carriesOut_runCommand (p : Preferences) (command : Command) (args : List Text) :
    CarriesOut p (command.change? args) (runCommand p command args) := by
  fun_cases runCommand p command args
  case case1 view name type data more => exact carriesOut_addTrustAnchor ..
  case case2 name clients => exact carriesOut_addView ..
  case case3 name type file => exact carriesOut_addZone p name type file none
  case case4 name type file view => exact carriesOut_addZone p name type file (some view)
  case case5 =>
    exact carriesOut_look fun _ _ => (isReadOnly_say _).bind fun _ => (isReadOnly_say _).bind fun _ =>
      isReadOnly_pure _
  case case6 => exact carriesOut_look fun _ _ => isReadOnly_say_success _
  case case7 => exact carriesOut_listZones p none
  case case8 view => exact carriesOut_listZones p (some view)
  case case9 => exact carriesOut_edit fun _ => rfl
  case case10 name => exact carriesOut_ite (isReadOnly_refuse _)
  case case11 name => exact carriesOut_removeZone p name none
  case case12 name view => exact carriesOut_removeZone p name (some view)
  case case13 word b hword =>
    exact carriesOut_edit fun c => Option.map_eq_some_iff.mpr ⟨b, hword, rfl⟩
  case case14 word hword =>
    exact .spare (fun _ => Option.map_eq_none_iff.mpr hword) (isReadOnly_refuse _)
  case case15 name => exact carriesOut_showZone p name
  case case16 =>
    refine .spare (fun c => ?_) (isReadOnly_refuse _)
    rw [Command.change?] <;> assumption

/-- What the file says, if it is there and the command changes that, is saved. -/
lemma CarriesOut.runOn_of_some {change : Config → Option Config} {x : Script Exit}
    (h : CarriesOut p change x) {s : σ} {t : Text} (hread : disk.read? s p.path = some t)
    {changed : Config} (hchange : change (opened p t).config = some changed) :
    x.runOn disk s = (.ofError (disk.store s p.path (written p t changed)).1,
      (disk.store s p.path (written p t changed)).2) := by
  cases h with
  | spare hnone _ => rw [hnone] at hchange; cases hchange
  | session _ hsome =>
      rcases runOn_withSession (p := p) disk _ s with ⟨t', ht', hrun⟩ | ⟨hnone, -⟩
      · obtain rfl := Option.some.inj (hread.symm.trans ht')
        obtain ⟨before, hbefore, hnext⟩ := hsome (opened p t) (Config.ofNodes p.unknown _).remarks
          changed hchange
        rw [hrun, hnext, runOn_bind, hbefore.runOn_snd, runOn_save]
      · rw [hread] at hnone
        cases hnone

/-- Otherwise all files are left alone. -/
lemma CarriesOut.runOn_of_none {change : Config → Option Config} {x : Script Exit}
    (h : CarriesOut p change x) {s : σ}
    (hchange : ∀ t, disk.read? s p.path = some t → change (opened p t).config = none) :
    (x.runOn disk s).2 = s := by
  cases h with
  | spare _ hx => exact hx.runOn_snd s
  | session hnone _ =>
      rcases runOn_withSession (p := p) disk _ s with ⟨t, ht, hrun⟩ | ⟨-, hrun⟩
      · rw [hrun]
        exact (hnone _ _ (hchange t ht)).runOn_snd s
      · exact hrun

/-! ## Runs -/

/-- A request for an edit, and all that it comes to: the file that the settings name is there, and the
    command changes what it says. -/
structure Request.Edit (r : Request) (read? : Text → Option Text) where
  word : Text
  args : List Text
  command : Command
  settings : Settings
  preferences : Preferences
  /-- The text of the file. -/
  before : Text
  /-- What the command makes of the configuration that was read from the file. -/
  changed : Config
  help_eq : r.help = false
  words_eq : r.words = word :: args
  ofWord?_eq : Command.ofWord? word.lower = some command
  mem_editing : command ∈ Command.editing
  readSettings_eq : readSettings r.configDir (read? (settingsPath r.configDir)) = .ok settings
  ofSettings_eq : Preferences.ofSettings r.verbose settings = .ok preferences
  value_eq : settings.value "named-conf" = .ok preferences.path
  read?_eq : read? preferences.path = some before
  change?_eq : command.change? args
    (Config.ofNodes preferences.unknown (Node.parse before)).value = some changed

namespace Request.Edit

variable {r : Request} {read? : Text → Option Text} (e : r.Edit read?)

/-- The file that is edited, as the settings name it. -/
def path : Text := e.preferences.path

/-- The text of the file with the changed configuration put into it. -/
def after : Text :=
  Node.renderFile (e.changed.apply e.preferences.placement (Node.parse e.before)).value

end Request.Edit

lemma exists_of_bind_eq_ok {ε α β : Type} {x : Except ε α} {f : α → Except ε β} {b : β}
    (h : x >>= f = .ok b) : ∃ a, x = .ok a ∧ f a = .ok b := by
  cases x with
  | error e => cases h
  | ok a => exact ⟨a, rfl, h⟩

/-- The path is the one that the settings name. -/
lemma Preferences.value_of_ofSettings {verbose : Bool} {settings : Settings}
    (h : Preferences.ofSettings verbose settings = .ok p) :
    settings.value "named-conf" = .ok p.path := by
  obtain ⟨level, -, h⟩ := exists_of_bind_eq_ok h
  obtain ⟨mode, -, h⟩ := exists_of_bind_eq_ok h
  obtain ⟨keep, -, h⟩ := exists_of_bind_eq_ok h
  obtain ⟨path, hpath, h⟩ := exists_of_bind_eq_ok h
  cases h
  exact hpath

lemma isReadOnly_help (r : Request) : (help r).IsReadOnly := isReadOnly_say_success _

/-- No command is the word for help. -/
lemma Command.lower_ne_help {word : Text} {command : Command}
    (h : Command.ofWord? word.lower = some command) : word.lower ≠ "help" := by
  intro heq
  rw [heq] at h
  cases h

/-- **An edit** is carried out: what the file says is changed, and the file is written. -/
theorem Request.Edit.runOn_eq {r : Request} {s : σ} (e : r.Edit (disk.read? s)) :
    (run r).runOn disk s =
      (.ofError (disk.store s e.path e.after).1, (disk.store s e.path e.after).2) := by
  have hread : (readFile (settingsPath r.configDir)).runOn disk s =
      (disk.read? s (settingsPath r.configDir), s) := rfl
  have hpreferences : (readSettings r.configDir (disk.read? s (settingsPath r.configDir))).bind
      (Preferences.ofSettings r.verbose) = .ok e.preferences := by
    rw [e.readSettings_eq]
    exact e.ofSettings_eq
  rw [run, e.words_eq]
  dsimp only
  rw [if_neg (by simp [e.help_eq, Command.lower_ne_help e.ofWord?_eq]), runOn_bind, hread,
    hpreferences, e.ofWord?_eq]
  exact (carriesOut_runCommand e.preferences e.command e.args).runOn_of_some e.read?_eq e.change?_eq

/-- **A run that is no edit** leaves all files alone. -/
theorem runOn_of_isEmpty_edit {r : Request} {s : σ} (h : IsEmpty (r.Edit (disk.read? s))) :
    ((run r).runOn disk s).2 = s := by
  have hread : (readFile (settingsPath r.configDir)).runOn disk s =
      (disk.read? s (settingsPath r.configDir), s) := rfl
  rw [run]
  cases hwords : r.words with
  | nil => exact (isReadOnly_help r).runOn_snd s
  | cons word args =>
      dsimp only
      split
      next => exact (isReadOnly_help r).runOn_snd s
      next hhelp =>
        rw [runOn_bind, hread]
        cases hpreferences : (readSettings r.configDir (disk.read? s (settingsPath r.configDir))).bind
            (Preferences.ofSettings r.verbose) with
        | error e => exact (isReadOnly_fail _).runOn_snd s
        | ok p =>
            cases hcommand : Command.ofWord? word.lower with
            | none => exact (isReadOnly_refuse _).runOn_snd s
            | some command =>
                refine (carriesOut_runCommand p command args).runOn_of_none fun t ht => ?_
                -- a change would make the request an edit
                refine Option.eq_none_iff_forall_ne_some.mpr fun changed hchange => ?_
                obtain ⟨settings, hsettings, hp⟩ := exists_of_bind_eq_ok hpreferences
                rw [Bool.or_eq_true, not_or, Bool.not_eq_true] at hhelp
                exact h.false ⟨word, args, command, settings, p, t, changed, hhelp.1, hwords, hcommand,
                  Command.mem_editing hchange, hsettings, hp, Preferences.value_of_ofSettings hp, ht,
                  hchange⟩

/-- Only an edit whose file can be written changes any file, and it does not fail. -/
theorem runOn_cases (disk : Disk σ) (r : Request) (s : σ) :
    ((run r).runOn disk s).2 = s ∨
      ∃ e : r.Edit (disk.read? s), e.path ≠ [] ∧
        ∃ after, disk.write s e.path e.after = .ok after ∧ (run r).runOn disk s = (.success, after) := by
  rcases isEmpty_or_nonempty (r.Edit (disk.read? s)) with h | ⟨⟨e⟩⟩
  · exact Or.inl (runOn_of_isEmpty_edit h)
  · rw [e.runOn_eq, Disk.store]
    split
    next => exact Or.inl rfl
    next hpath =>
      cases hwrite : disk.write s e.path e.after with
      | error _ => exact Or.inl rfl
      | ok after => exact Or.inr ⟨e, hpath, after, hwrite, rfl⟩

/-- A run that fails has changed nothing. -/
theorem runOn_of_code_ne {r : Request} {s : σ} (h : ((run r).runOn disk s).1.code ≠ 0) :
    ((run r).runOn disk s).2 = s := by
  rcases runOn_cases disk r s with hsame | ⟨e, -, after, -, hrun⟩
  · exact hsame
  · rw [hrun] at h
    exact absurd rfl h

/-- A folder changes only if a path leads to a file of it. -/
lemma Folder.exists_of_write_ne {folder after : Folder} {path content : Text}
    (h : folder.write path content = .ok after) (hne : after ≠ folder) :
    ∃ name, Spot.ofPath? path = some (.file name) ∧
      after = ⟨Folder.store name content folder.files⟩ := by
  rw [Folder.write] at h
  split at h
  next name hpath =>
    obtain rfl := Except.ok.inj h
    exact ⟨name, hpath, rfl⟩
  next => exact absurd (Except.ok.inj h).symm hne
  next =>
    split at h
    · exact absurd (Except.ok.inj h).symm hne
    · cases h
  next => cases h

/-- **A run spares all files but the one that it edits**, and that one too if it fails.  Files are a map
    from paths to contents of which any may refuse to be opened for writing, or those of a folder.

    A file that was changed is the one that the settings name, the command is one of those that edit,
    and the file holds its nodes with the changed configuration put into them.  An edit that can be
    written is written. -/
theorem run_spares_files (r : Request) :
    (∀ (refuses : Text → Text → Option FileError) (files : Text → Option Text),
      (((run r).runOn (.files refuses) files).1.code ≠ 0 →
        ((run r).runOn (.files refuses) files).2 = files) ∧
      (∀ path, ((run r).runOn (.files refuses) files).2 path ≠ files path →
        ∃ e : r.Edit files, path = e.path ∧
          ((run r).runOn (.files refuses) files).2 path = some e.after) ∧
      ∀ e : r.Edit files, e.path ≠ [] → refuses e.path e.after = none →
        (run r).runOn (.files refuses) files =
          (.success, Function.update files e.path (some e.after))) ∧
    ∀ (folder : Folder) (printed : Printed),
      (((run r).run folder printed).1.code ≠ 0 → ((run r).run folder printed).2.1 = folder) ∧
      (((run r).run folder printed).2.1 ≠ folder →
        ∃ (e : r.Edit folder.read?) (name : Text), Spot.ofPath? e.path = some (.file name) ∧
          ((run r).run folder printed).2.1 = ⟨Folder.store name e.after folder.files⟩) := by
  refine ⟨fun refuses files => ⟨runOn_of_code_ne, fun path hne => ?_, fun e hpath hwrite => ?_⟩,
    fun folder printed => ?_⟩
  · rcases runOn_cases (.files refuses) r files with hsame | ⟨e, -, after, hwrite, hrun⟩
    · exact absurd (congrFun hsame path) hne
    · obtain rfl := Disk.eq_update_of_write hwrite
      rw [hrun] at hne ⊢
      have hedited : path = e.path :=
        of_not_not fun h => hne (Function.update_of_ne h _ _)
      exact ⟨e, hedited, hedited ▸ Function.update_self ..⟩
  · have hrun : (run r).runOn (.files refuses) files = _ := Request.Edit.runOn_eq e
    have hstore : (Disk.files refuses).store files e.path e.after =
        (none, Function.update files e.path (some e.after)) := Disk.store_files hpath hwrite
    exact hrun.trans (congrArg (fun stored => (Exit.ofError stored.1, stored.2)) hstore)
  · have hrun := runOn_folder (run r) folder printed
    have hexit := congrArg Prod.fst hrun
    have hfiles := congrArg Prod.snd hrun
    dsimp only at hexit hfiles
    rw [← hexit, ← hfiles]
    refine ⟨runOn_of_code_ne, fun hne => ?_⟩
    rcases runOn_cases .folder r folder with hsame | ⟨e, -, after, hwrite, hrun⟩
    · exact absurd hsame hne
    · rw [hrun] at hne ⊢
      obtain ⟨name, hpath, hafter⟩ := Folder.exists_of_write_ne hwrite hne
      exact ⟨e, name, hpath, hafter⟩

/-- A request to remove the one zone of the workplace. -/
def removal : Request := ⟨["remove-zone", "b"], false, false, "."⟩

/-- It changes the file that the settings name. -/
theorem run_spares_files_removal :
    ((run removal).run workplace .nothing).2.1 ≠ workplace ∧
      ∃ (e : removal.Edit workplace.read?) (name : Text), Spot.ofPath? e.path = some (.file name) ∧
        ((run removal).run workplace .nothing).2.1 =
          ⟨Folder.store name e.after workplace.files⟩ := by
  have hne : ((run removal).run workplace .nothing).2.1 ≠ workplace := of_decide_eq_true (by cbv)
  exact ⟨hne, ((run_spares_files removal).2 workplace .nothing).2 hne⟩

end Tool

end NameServerConf
