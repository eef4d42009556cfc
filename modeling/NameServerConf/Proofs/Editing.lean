import NameServerConf.Proofs.Normalizing
import NameServerConf.Tool.Basic

/-!
# What an edit writes

**Editing.**  An edit of a file that is there always succeeds.  The file then is what it was with the
changed configuration put into it, and no other file is touched (`Tool.run_edit`).

**Adding a zone.**  So whether the file says what was asked for is a question about the texts that are
put into it.  For a closed file whose texts can be written, a name and a path that can be written are
written: `Tool.run_addZone`.  Nothing looks at the name or the path before that, and a name that ends
its own quotation marks adds another zone than the one asked for (`Tool.run_addZone_ne`).
-/

namespace NameServerConf

/-! ## Running scripts -/

namespace Script

variable {α β : Type}

/-- The second script is run on what the first one leaves. -/
lemma run_bind (s : Script α) (f : α → Script β) (folder : Folder) (printed : Printed) :
    (s >>= f).run folder printed =
      (f (s.run folder printed).1).run (s.run folder printed).2.1 (s.run folder printed).2.2 := by
  induction s generalizing folder printed with
  | done a => rfl
  | read path next ih => exact ih _ _ _
  | print stream text next ih => exact ih _ _
  | write path content next ih =>
      show (Script.write path content fun error => next error >>= f).run folder printed = _
      rw [run, run]
      cases folder.write path content with
      | ok after => exact ih _ _ _
      | error e => exact ih _ _ _

lemma run_readFile (path : Text) (folder : Folder) (printed : Printed) :
    (readFile path).run folder printed = (folder.read? path, folder, printed) := rfl

lemma run_writeFile {folder after : Folder} {path content : Text}
    (h : folder.write path content = .ok after) (printed : Printed) :
    (writeFile path content).run folder printed = (none, after, printed) := by
  rw [writeFile, run, h]
  rfl

end Script

/-! ## One file -/

section OneFile

variable {folder : Folder} {path name t : Text}

/-- A path leads to a file of the folder, and this is its content. -/
structure Folder.Holds (folder : Folder) (path name t : Text) : Prop where
  leads : Spot.ofPath? path = some (.file name)
  content : Folder.lookup name folder.files = some t

lemma Folder.Holds.read?_eq (h : folder.Holds path name t) : folder.read? path = some t := by
  rw [Folder.read?, h.leads]
  exact h.content

lemma Folder.Holds.write_eq (h : folder.Holds path name t) (content : Text) :
    folder.write path content = .ok ⟨Folder.store name content folder.files⟩ := by
  rw [Folder.write, h.leads]

lemma Folder.Holds.ne_nil (h : folder.Holds path name t) : path ≠ [] := by
  rintro rfl
  cases h.leads

namespace Document

lemma run_load (printed : Printed) (h : folder.Holds path name t) :
    (load path).run folder printed = (.ok ⟨Node.parse t, some path⟩, folder, printed) := by
  rw [load, Script.run_bind, Script.run_readFile, h.read?_eq]
  rfl

lemma run_save (ns : List Node) (printed : Printed) (h : folder.Holds path name t) :
    (save ⟨ns, some path⟩ []).run folder printed =
      (none, ⟨Folder.store name (Node.renderFile ns) folder.files⟩, printed) := by
  have htarget : target ⟨ns, some path⟩ [] = path := rfl
  rw [save, htarget, if_neg h.ne_nil, Script.run_writeFile (h.write_eq _)]
  rfl

end Document

namespace Session

/-- A file that is there is taken up. -/
lemma run_load (unknown : Unknown) (s : Session) (printed : Printed)
    (h : folder.Holds path name t) :
    (load unknown path s).run folder printed =
      (⟨⟨(Config.ofNodes unknown (Node.parse t)).value, some ⟨Node.parse t, some path⟩⟩,
        (Config.ofNodes unknown (Node.parse t)).remarks, .ok ()⟩, folder, printed) := by
  have hremarks : (ofDocument unknown ⟨Node.parse t, some path⟩).remarks =
      (Config.ofNodes unknown (Node.parse t)).remarks := List.append_nil _
  rw [load, Script.run_bind, Document.run_load printed h, ← hremarks]
  rfl

/-- A file that was taken up is written with the configuration put into it. -/
lemma run_save (placement : Placement) (c : Config) (ns : List Node) (printed : Printed)
    (h : folder.Holds path name t) :
    (save placement [] ⟨c, some ⟨ns, some path⟩⟩).run folder printed =
      (⟨⟨c, some ⟨(c.apply placement ns).value, some path⟩⟩,
        (c.apply placement ns).remarks ++ [.saved path], .ok ()⟩,
        ⟨Folder.store name (Node.renderFile (c.apply placement ns).value) folder.files⟩, printed) := by
  rw [save, apply]
  dsimp only
  rw [Script.run_bind, Document.run_save _ printed h]
  rfl

end Session

namespace Tool

variable (p : Preferences) (printed : Printed)

lemma run_remarked (remarks : List Remark) : (remarked p remarks).run folder printed =
    ((), folder, printed.add .errors (Remark.log p.threshold remarks)) := rfl

/-- What is done with a file that is there is done with its nodes and with what they say. -/
lemma run_withSession (next : Session → List Remark → Script Exit) (h : folder.Holds p.path name t) :
    (withSession p next).run folder printed =
      (next ⟨(Config.ofNodes p.unknown (Node.parse t)).value, some ⟨Node.parse t, some p.path⟩⟩
        (Config.ofNodes p.unknown (Node.parse t)).remarks).run folder
        (printed.add .errors (Remark.log p.threshold
          (Config.ofNodes p.unknown (Node.parse t)).remarks)) := by
  rw [withSession, Script.run_bind, Session.run_load _ _ _ h]
  dsimp only
  rw [Script.run_bind, run_remarked]

lemma run_save (c : Config) (ns : List Node) (h : folder.Holds p.path name t) :
    (save p ⟨c, some ⟨ns, some p.path⟩⟩).run folder printed =
      (.success, ⟨Folder.store name (Node.renderFile (c.apply p.placement ns).value) folder.files⟩,
        printed.add .errors (Remark.log p.threshold
          ((c.apply p.placement ns).remarks ++ [.saved p.path]))) := by
  rw [save, Script.run_bind, Session.run_save _ _ _ _ h]
  dsimp only
  rw [Script.run_bind, run_remarked]
  rfl

/-- **An edit** of a file that is there succeeds, and the file then is what it was with the changed
    configuration put into it. -/
theorem run_edit (change : Config → Config) (h : folder.Holds p.path name t) :
    ∃ told, (edit p change).run folder printed =
      (.success, ⟨Folder.store name (Node.renderFile
        ((change (Config.ofNodes p.unknown (Node.parse t)).value).apply p.placement
          (Node.parse t)).value) folder.files⟩, told) := by
  rw [edit, run_withSession p printed _ h, run_save p _ _ _ h]
  exact ⟨_, rfl⟩

end Tool

end OneFile

/-! ## Adding a zone -/

lemma Named.mem_upsert {α : Type} [Named α] {a b : α} {l : List α} (h : b ∈ upsert a l) :
    b = a ∨ b ∈ l := by
  induction l with
  | nil => exact Or.inl (List.mem_singleton.mp h)
  | cons c l ih =>
      rw [upsert] at h
      split at h
      · exact (List.mem_cons.mp h).imp_right (List.mem_cons_of_mem c)
      · rcases List.mem_cons.mp h with rfl | h
        · exact Or.inr (List.mem_cons_self ..)
        · exact (ih h).imp_right (List.mem_cons_of_mem c)

/-- A zone about which no more is known than its type and its file. -/
def Zone.ofFile (name : Text) (kind : ZoneType) (file : Text) : Zone :=
  { Zone.empty name with type := some kind, file := file }

lemma Zone.wellFormed_ofFile {name file : Text} (hname : name.isName = true)
    (hfile : file.isClean = true) (kind : ZoneType) : (Zone.ofFile name kind file).WellFormed where
  name := hname
  zclass := rfl
  file := hfile
  primaries := trivial
  forwarders := forall_mem_none _
  forward := rfl
  allowUpdate := forall_mem_none _
  allowTransfer := forall_mem_none _
  alsoNotify := forall_mem_none _
  dnssecPolicy := rfl
  other := List.forall_mem_nil _

lemma Config.WellFormed.upsertZone {c : Config} (h : c.WellFormed) {z : Zone} (hz : z.WellFormed) :
    (c.upsertZone z).WellFormed :=
  { h with zones := fun _ hmem => (Named.mem_upsert hmem).elim (fun heq => heq ▸ hz) (h.zones _) }

namespace Tool

open Spelling Node

/-- **A zone that was added is there**, and all else is as it was, if unknown statements are kept, the
    file is closed and its texts can be written, and so can the name of the zone and the path of its
    file. -/
theorem run_addZone {p : Preferences} (hkeep : p.unknown = .keep) {folder : Folder} {name t : Text}
    (h : folder.Holds p.path name t) (ht : t.isClosed = true)
    (hsound : AllSound (Config.ofNodes .keep (parse t)).value.spellings) {zone type file : Text}
    {kind : ZoneType} (hkind : ZoneType.ofWord? type.lower = some kind) (hzone : zone.isName = true)
    (hfile : file.isClean = true) (printed : Printed) :
    ∃ written told, (runCommand p .addZone [zone, type, file]).run folder printed =
        (.success, ⟨Folder.store name written folder.files⟩, told) ∧
      Config.ofNodes .keep (parse written) =
        pure ((Config.ofNodes .keep (parse t)).value.upsertZone (.ofFile zone kind file)) := by
  have hcommand : runCommand p .addZone [zone, type, file] =
      edit p fun c => c.upsertZone (.ofFile zone kind file) := by
    show addZone p zone type file none = _
    rw [addZone, hkind]
    rfl
  -- the edit itself cannot fail, so all depends on what the written text says
  obtain ⟨told, hrun⟩ := run_edit p printed (fun c => c.upsertZone (.ofFile zone kind file)) h
  rw [← hcommand, hkeep] at hrun
  have hwellFormed := ((Config.checked_ofNodes ht).wellFormed hsound).upsertZone
    (Zone.wellFormed_ofFile hzone hfile kind)
  have hread := Config.addAll_renderFile hwellFormed p.placement ht
  refine ⟨_, told, hrun, ?_⟩
  rw [Config.ofNodes, hread]
  rfl

/-- The configuration file of a zone about which nothing is said. -/
def oneZone : Text := "zone \"b\" \x7b \x7d;\n"

/-- A folder with that file, and with the settings that lead to it. -/
def workplace : Folder := ⟨[("named.conf", oneZone), ("nzutil.conf", "named-conf=named.conf\n")]⟩

/-- The preferences that these settings come to. -/
def preferences : Preferences := ⟨"named.conf", .keep, .append, .warning, false⟩

/-- A second zone. -/
theorem run_addZone_workplace :
    ∃ written told,
      (runCommand preferences .addZone ["x", "Secondary", "x.db"]).run workplace .nothing =
        (.success, ⟨Folder.store "named.conf" written workplace.files⟩, told) ∧
      Config.ofNodes .keep (parse written) =
        pure ((Config.ofNodes .keep (parse oneZone)).value.upsertZone
          (.ofFile "x" .secondary "x.db")) :=
  run_addZone rfl ⟨by cbv, by cbv⟩ (by cbv) (of_decide_eq_true (by cbv)) (by cbv) (by cbv) (by cbv)
    .nothing

/-- The name of a zone that ends its quotation marks. -/
def unquoted : Text := "x\" \x7b \x7d; zone \"y"

/-- A request for a zone of that name. -/
def request : Request := ⟨["add-zone", unquoted, "primary", "f"], false, false, "."⟩

/-- What is written says that there is another zone. -/
lemma names_run_request :
    (((run request).run workplace .nothing).2.1.read? "named.conf").map
      (fun t => (Config.ofNodes .keep (parse t)).value.zones.map Zone.name) =
        some [Text.ofString "b", Text.ofString "x"] := by
  cbv

/-- A file that normalizing does not change may come to hold another zone than the one asked for. -/
theorem run_addZone_ne :
    oneZone.isClosed = true ∧
    (∀ p : Placement,
      (Config.ofNodes .keep (parse (renderFile ((Config.ofNodes .keep (parse oneZone)).value.apply p
        (parse oneZone)).value))).value = (Config.ofNodes .keep (parse oneZone)).value) ∧
    ((run request).run workplace .nothing).1 = .success ∧
    ∃ written, ((run request).run workplace .nothing).2.1.read? "named.conf" = some written ∧
      (Config.ofNodes .keep (parse written)).value ≠
        (Config.ofNodes .keep (parse oneZone)).value.upsertZone (.ofFile unquoted .primary "f") := by
  refine ⟨by cbv, fun p => ?_, by cbv, ?_⟩
  · have hchecked := Config.checked_ofNodes (t := oneZone) (by cbv)
    have hwellFormed := hchecked.wellFormed (of_decide_eq_true (by cbv))
    rw [Config.ofNodes, Config.addAll_renderFile hwellFormed p (by cbv)]
    rfl
  · obtain ⟨written, hread, hnames⟩ := Option.map_eq_some_iff.mp names_run_request
    refine ⟨written, hread, fun heq => ?_⟩
    have hasked : ((Config.ofNodes .keep (parse oneZone)).value.upsertZone
        (.ofFile unquoted .primary "f")).zones.map Zone.name = [Text.ofString "b", unquoted] := by
      cbv
    rw [heq, hasked] at hnames
    cases hnames

end Tool

end NameServerConf
