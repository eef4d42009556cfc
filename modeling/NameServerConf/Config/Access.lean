import NameServerConf.Config.Basic

/-!
# Looking into a configuration and changing it

Zones and views are found by name.  Of two with the same name the first counts; removing takes all of
them.  Operations inside a view create the view if there is none.
-/

namespace NameServerConf.Config

/-- The zone with the given name: one at top level, or else one in the first view that has it. -/
def zone? (c : Config) (name : Text) : Option Zone :=
  (Named.find? name c.zones).or (c.views.findSome? fun v => Named.find? name v.zones)

/-- Changes the zone in the first view that has it. -/
def modifyZoneInViews (name : Text) (f : Zone → Zone) : List View → List View
  | [] => []
  | v :: vs =>
    if Named.has name v.zones then { v with zones := Named.modify name f v.zones } :: vs
    else v :: modifyZoneInViews name f vs

/-- Changes the zone that `zone?` finds. -/
def modifyZone (c : Config) (name : Text) (f : Zone → Zone) : Config :=
  if Named.has name c.zones then { c with zones := Named.modify name f c.zones }
  else { c with views := modifyZoneInViews name f c.views }

/-- Adds a zone at top level, or replaces the one of its name. -/
def upsertZone (c : Config) (z : Zone) : Config := { c with zones := Named.upsert z c.zones }

/-- Whether there is a zone of the given name at top level. -/
def hasZone (c : Config) (name : Text) : Bool := Named.has name c.zones

/-- Removes the zones of the given name at top level. -/
def removeZone (c : Config) (name : Text) : Config := { c with zones := Named.erase name c.zones }

/-- The view with the given name. -/
def view? (c : Config) (name : Text) : Option View := Named.find? name c.views

/-- Adds a view, or replaces the one of its name. -/
def upsertView (c : Config) (v : View) : Config := { c with views := Named.upsert v c.views }

/-- Whether there is a view of the given name. -/
def hasView (c : Config) (name : Text) : Bool := Named.has name c.views

/-- Removes the views of the given name. -/
def removeView (c : Config) (name : Text) : Config := { c with views := Named.erase name c.views }

/-- Says whether the server looks up names on behalf of its clients. -/
def setRecursion (c : Config) (recursion : Bool) : Config :=
  { c with options := some { c.options.getD Options.empty with recursion := some recursion } }

/-- Changes the view of the given name, which is created at the end if there is none. -/
def modifyView (c : Config) (name : Text) (f : View → View) : Config :=
  if c.hasView name then { c with views := Named.modify name f c.views }
  else { c with views := c.views ++ [f (View.empty name)] }

/-- Adds a zone to a view, or replaces the one of its name there. -/
def upsertZoneInView (c : Config) (view : Text) (z : Zone) : Config :=
  c.modifyView view fun v => { v with zones := Named.upsert z v.zones }

/-- Whether a view has a zone of the given name. -/
def hasZoneInView (c : Config) (view name : Text) : Bool :=
  (c.view? view).any fun v => Named.has name v.zones

/-- Removes the zones of the given name from a view. -/
def removeZoneInView (c : Config) (view name : Text) : Config :=
  { c with views := Named.modify view (fun v => { v with zones := Named.erase name v.zones }) c.views }

/-- Gives a view its trust anchors. -/
def setTrustAnchorsInView (c : Config) (view : Text) (anchors : TrustAnchors) : Config :=
  c.modifyView view fun v => { v with trustAnchors := some anchors }

/-- The number of zones, those in views included. -/
def zoneCount (c : Config) : Nat := c.zones.length + (c.views.flatMap fun v => v.zones).length

end NameServerConf.Config
