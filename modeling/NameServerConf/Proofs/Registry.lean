import Mathlib.Data.Finmap
import NameServerConf.Proofs.Editing

/-!
# Zones and views as finite maps

Zones and views are lists in which a name may be there more than once.  Looked at by name they are
finite maps all the same.

**Named things.**  `Named.firsts` is the finite map of the first thing of each name.  Putting a thing in
binds its name there and removing unbinds it, and things of other names stay as and where they are.

**Calls.**  A `Call` changes a configuration, or its `Registry`: the first zone of each name, and of the
first view of each name what it says and its first zones.  Changing a view is putting in the changed
view (`Config.modifyView_eq`), so each call does to the registry what it does to the configuration
(`Config.perform_registry`).

**Runs.**  By induction a run of calls does too, gives the same answers, spares what no call is about
(`Spared`), and keeps names unique (`Config.performAll_spec`).
-/

namespace NameServerConf

/-! ## Named things -/

namespace Named

variable {α β : Type} [Named α]

/-- The first thing of each name, as what `f` makes of it. -/
def firsts (f : α → β) (l : List α) : Finmap fun _ : Text => β :=
  l.foldr (fun a m => m.insert (name a) (f a)) ∅

lemma lookup_firsts (f : α → β) (l : List α) (key : Text) :
    (firsts f l).lookup key = (find? key l).map f := by
  induction l with
  | nil => rfl
  | cons a l ih =>
      rw [find?_cons, show firsts f (a :: l) = (firsts f l).insert (name a) (f a) from rfl]
      split
      next h => rw [← h, Finmap.lookup_insert, Option.map_some]
      next h => rw [Finmap.lookup_insert_of_ne _ (Ne.symm h), ih]

lemma has_eq_mem_firsts (f : α → β) (key : Text) (l : List α) :
    has key l = decide (key ∈ firsts f l) := by
  rw [has_eq_isSome_find?, Bool.eq_iff_iff, decide_eq_true_iff, ← Finmap.lookup_isSome,
    lookup_firsts, Option.isSome_map]

lemma firsts_upsert (f : α → β) (a : α) (l : List α) :
    firsts f (upsert a l) = (firsts f l).insert (name a) (f a) := by
  refine Finmap.ext_lookup fun key => ?_
  rw [lookup_firsts, find?_upsert]
  split
  next h => rw [← h, Finmap.lookup_insert, Option.map_some]
  next h => rw [Finmap.lookup_insert_of_ne _ (Ne.symm h), lookup_firsts]

lemma firsts_erase (f : α → β) (key : Text) (l : List α) :
    firsts f (erase key l) = (firsts f l).erase key := by
  refine Finmap.ext_lookup fun k => ?_
  rw [lookup_firsts, find?_erase]
  split
  next h => rw [h, Finmap.lookup_erase, Option.map_none]
  next h => rw [Finmap.lookup_erase_ne h, lookup_firsts]

lemma name_eq_of_find? {key : Text} {a : α} {l : List α} (h : find? key l = some a) :
    name a = key :=
  of_decide_eq_true (List.find?_some (p := fun a => decide (name a = key)) h)

/-- A change of the first thing of a name puts in the changed thing. -/
lemma modify_eq_upsert {key : Text} {f : α → α} {a : α} {l : List α} (h : find? key l = some a)
    (hf : name (f a) = key) : modify key f l = upsert (f a) l := by
  induction l with
  | nil => cases h
  | cons b l ih =>
      rw [find?_cons] at h
      rw [modify, upsert, hf]
      split
      next hb =>
        rw [if_pos hb] at h
        rw [Option.some.inj h]
      next hb =>
        rw [if_neg hb] at h
        rw [ih h]

/-- Nothing is changed if there is nothing of that name. -/
lemma modify_eq_self {key : Text} (f : α → α) {l : List α} (h : find? key l = none) :
    modify key f l = l := by
  induction l with
  | nil => rfl
  | cons b l ih =>
      rw [find?_cons] at h
      rw [modify]
      split
      next hb => rw [if_pos hb] at h; cases h
      next hb => rw [if_neg hb] at h; rw [ih h]

/-- What is not there yet is put in at the end. -/
lemma upsert_eq_concat {a : α} {l : List α} (h : find? (name a) l = none) : upsert a l = l ++ [a] := by
  induction l with
  | nil => rfl
  | cons b l ih =>
      rw [find?_cons] at h
      rw [upsert]
      split
      next hb => rw [if_pos hb] at h; cases h
      next hb => rw [if_neg hb] at h; rw [ih h, List.cons_append]

/-- **Things of other names** stay as and where they are when a thing is put in. -/
lemma filter_upsert {p : α → Bool} {a : α} (hp : ∀ b, name b = name a → p b = false) (l : List α) :
    (upsert a l).filter p = l.filter p := by
  induction l with
  | nil => simp [upsert, hp a rfl]
  | cons b l ih =>
      rw [upsert]
      split
      next hb => rw [List.filter_cons_of_neg, List.filter_cons_of_neg] <;> simp [hp _ hb, hp a rfl]
      next hb => rw [List.filter_cons, List.filter_cons, ih]

lemma filter_erase {p : α → Bool} {key : Text} (hp : ∀ b, name b = key → p b = false) (l : List α) :
    (erase key l).filter p = l.filter p := by
  rw [erase, List.filter_filter]
  refine List.filter_congr fun b _ => ?_
  by_cases hb : name b = key <;> simp [hb, hp b]

/-- Of several things of a name only the first is replaced. -/
lemma tail_filter_upsert (key : Text) (a : α) (l : List α) :
    ((upsert a l).filter fun b => name b = key).tail = (l.filter fun b => name b = key).tail := by
  by_cases ha : name a = key
  · induction l with
    | nil => simp [upsert, ha]
    | cons b l ih =>
        rw [upsert]
        split
        next hb => simp [ha, hb]
        next hb => simpa [← ha, hb] using ih
  · rw [filter_upsert fun b hb => decide_eq_false (hb ▸ ha)]

/-- No two things have the same name. -/
def Unique (l : List α) : Prop := (l.map name).Nodup

instance (l : List α) : Decidable (Unique l) := inferInstanceAs (Decidable (l.map name).Nodup)

lemma Unique.upsert {l : List α} (h : Unique l) (a : α) : Unique (upsert a l) := by
  induction l with
  | nil => exact List.nodup_singleton _
  | cons b l ih =>
      obtain ⟨hb, hl⟩ := List.nodup_cons.mp h
      rw [Named.upsert]
      split
      next heq => exact List.nodup_cons.mpr ⟨heq ▸ hb, hl⟩
      next hne =>
        refine List.nodup_cons.mpr ⟨fun hmem => ?_, ih hl⟩
        obtain ⟨c, hc, hname⟩ := List.mem_map.mp hmem
        rcases mem_upsert hc with rfl | hc
        · exact hne hname.symm
        · exact hb (List.mem_map.mpr ⟨c, hc, hname⟩)

lemma Unique.erase {l : List α} (h : Unique l) (key : Text) : Unique (erase key l) :=
  h.sublist (List.filter_sublist.map _)

end Named

open Named (firsts)

/-! ## Calls -/

/-- What may be asked of a configuration, again and again. -/
inductive Call
  | upsertZone (z : Zone)
  | removeZone (name : Text)
  | upsertView (v : View)
  | removeView (name : Text)
  | upsertZoneInView (view : Text) (z : Zone)
  | removeZoneInView (view name : Text)
  | setTrustAnchorsInView (view : Text) (anchors : TrustAnchors)
  | setRecursion (recursion : Bool)

namespace Call

/-- Whether a call puts in or removes zones of the given name at top level. -/
def isAboutZone (name : Text) : Call → Bool
  | upsertZone z => z.name = name
  | removeZone key => key = name
  | _ => false

/-- Whether a call puts in or removes views of the given name. -/
def replacesView (name : Text) : Call → Bool
  | upsertView v => v.name = name
  | removeView key => key = name
  | _ => false

/-- Whether a call changes anything about views of the given name. -/
def isAboutView (name : Text) : Call → Bool
  | upsertZoneInView view _ => view = name
  | removeZoneInView view _ => view = name
  | setTrustAnchorsInView view _ => view = name
  | call => call.replacesView name

/-- Whether a call puts in or removes zones of the given name in the given view. -/
def isAboutZoneIn (view name : Text) : Call → Bool
  | upsertZoneInView v z => v = view && z.name = name
  | removeZoneInView v key => v = view && key = name
  | _ => false

/-- Whether a call says what the server does for its clients. -/
def isAboutOptions : Call → Bool
  | setRecursion _ => true
  | _ => false

end Call

namespace Config

/-- A call, and its answer if it has one: whether there was what it removes. -/
def perform (c : Config) : Call → Option Bool × Config
  | .upsertZone z => (none, c.upsertZone z)
  | .removeZone name => (some (c.hasZone name), c.removeZone name)
  | .upsertView v => (none, c.upsertView v)
  | .removeView name => (some (c.hasView name), c.removeView name)
  | .upsertZoneInView view z => (none, c.upsertZoneInView view z)
  | .removeZoneInView view name => (some (c.hasZoneInView view name), c.removeZoneInView view name)
  | .setTrustAnchorsInView view anchors => (none, c.setTrustAnchorsInView view anchors)
  | .setRecursion recursion => (none, c.setRecursion recursion)

/-- One call after the other, and their answers. -/
def performAll (c : Config) : List Call → List (Option Bool) × Config
  | [] => ([], c)
  | call :: calls =>
    let (answers, after) := (c.perform call).2.performAll calls
    ((c.perform call).1 :: answers, after)

/-- The view of the given name, or the one that is created for it. -/
def viewOrNew (c : Config) (name : Text) : View := (c.view? name).getD (View.empty name)

lemma viewOrNew_of_some {c : Config} {name : Text} {v : View} (h : c.view? name = some v) :
    c.viewOrNew name = v := by
  rw [viewOrNew, h, Option.getD_some]

lemma name_viewOrNew (c : Config) (name : Text) : (c.viewOrNew name).name = name := by
  rw [viewOrNew]
  cases h : c.view? name with
  | none => rfl
  | some v => exact Named.name_eq_of_find? h

/-- **A change inside a view** puts in the changed view. -/
lemma modifyView_eq (c : Config) {f : View → View} (hf : ∀ v, (f v).name = v.name) (name : Text) :
    c.modifyView name f = c.upsertView (f (c.viewOrNew name)) := by
  have hname : Named.name (f (c.viewOrNew name)) = name := (hf _).trans (c.name_viewOrNew name)
  rw [modifyView, hasView, Named.has_eq_isSome_find?, upsertView]
  cases h : Named.find? name c.views with
  | some v =>
      rw [viewOrNew, view?, h] at hname ⊢
      rw [Option.isSome_some, if_pos rfl, Named.modify_eq_upsert h hname, Option.getD_some]
  | none =>
      rw [viewOrNew, view?, h] at hname ⊢
      rw [Option.isSome_none, if_neg Bool.false_ne_true, Named.upsert_eq_concat (hname.symm ▸ h),
        Option.getD_none]

lemma upsertZoneInView_eq (c : Config) (view : Text) (z : Zone) :
    c.upsertZoneInView view z = c.upsertView
      { c.viewOrNew view with zones := Named.upsert z (c.viewOrNew view).zones } :=
  c.modifyView_eq (f := fun v => { v with zones := Named.upsert z v.zones }) (fun _ => rfl) view

lemma setTrustAnchorsInView_eq (c : Config) (view : Text) (anchors : TrustAnchors) :
    c.setTrustAnchorsInView view anchors =
      c.upsertView { c.viewOrNew view with trustAnchors := some anchors } :=
  c.modifyView_eq (f := fun v => { v with trustAnchors := some anchors }) (fun _ => rfl) view

lemma removeZoneInView_of_some {c : Config} {view : Text} {v : View} (h : c.view? view = some v)
    (name : Text) : c.removeZoneInView view name =
      c.upsertView { v with zones := Named.erase name v.zones } := by
  rw [removeZoneInView, Named.modify_eq_upsert h (Named.name_eq_of_find? (a := v) h), upsertView]

lemma removeZoneInView_of_none {c : Config} {view : Text} (h : c.view? view = none) (name : Text) :
    c.removeZoneInView view name = c := by
  rw [removeZoneInView, Named.modify_eq_self _ h]

end Config

/-! ## The registry -/

/-- A view: what it says, and the first of its zones of each name. -/
structure Registry.Entry where
  frame : View
  zones : Finmap fun _ : Text => Zone

/-- Finite maps of zones, of views with their zones, and what is said about recursion. -/
@[ext]
structure Registry where
  zones : Finmap fun _ : Text => Zone
  views : Finmap fun _ : Text => Registry.Entry
  recursion : Option Bool

namespace Registry

/-- A view without its zones, and these as a finite map. -/
def Entry.ofView (v : View) : Entry := ⟨{ v with zones := [] }, firsts id v.zones⟩

/-- The first zone of each name, and the first view of each name. -/
def ofConfig (c : Config) : Registry :=
  ⟨firsts id c.zones, firsts Entry.ofView c.views, c.options.bind (·.recursion)⟩

/-- The view of the given name, or the one that is created for it. -/
def entryOrNew (r : Registry) (name : Text) : Entry :=
  (r.views.lookup name).getD (Entry.ofView (View.empty name))

/-- A call binds a name, or unbinds it and answers whether it was bound. -/
def perform (r : Registry) : Call → Option Bool × Registry
  | .upsertZone z => (none, { r with zones := r.zones.insert z.name z })
  | .removeZone name => (some (name ∈ r.zones), { r with zones := r.zones.erase name })
  | .upsertView v => (none, { r with views := r.views.insert v.name (.ofView v) })
  | .removeView name => (some (name ∈ r.views), { r with views := r.views.erase name })
  | .upsertZoneInView view z =>
    let e := r.entryOrNew view
    (none, { r with views := r.views.insert view { e with zones := e.zones.insert z.name z } })
  | .removeZoneInView view name =>
    match r.views.lookup view with
    | some e => (some (name ∈ e.zones),
        { r with views := r.views.insert view { e with zones := e.zones.erase name } })
    | none => (some false, r)
  | .setTrustAnchorsInView view anchors =>
    let e := r.entryOrNew view
    (none, { r with views :=
      r.views.insert view { e with frame := { e.frame with trustAnchors := some anchors } } })
  | .setRecursion recursion => (none, { r with recursion := some recursion })

/-- One call after the other, and their answers. -/
def performAll (r : Registry) : List Call → List (Option Bool) × Registry
  | [] => ([], r)
  | call :: calls =>
    let (answers, after) := (r.perform call).2.performAll calls
    ((r.perform call).1 :: answers, after)

variable (c : Config)

lemma entryOrNew_ofConfig (name : Text) :
    (ofConfig c).entryOrNew name = Entry.ofView (c.viewOrNew name) := by
  show ((firsts Entry.ofView c.views).lookup name).getD _ = _
  rw [Named.lookup_firsts, Config.viewOrNew, Config.view?]
  cases Named.find? name c.views <;> rfl

lemma ofConfig_upsertView (v : View) : ofConfig (c.upsertView v) =
    { ofConfig c with views := (ofConfig c).views.insert v.name (.ofView v) } :=
  congrArg (fun views => ({ ofConfig c with views := views } : Registry))
    (Named.firsts_upsert Entry.ofView v c.views)

end Registry

namespace Config

variable (c : Config)

/-- **A call** does to the registry what it does to the configuration. -/
theorem perform_registry (call : Call) :
    ((c.perform call).1, Registry.ofConfig (c.perform call).2) = (Registry.ofConfig c).perform call := by
  cases call with
  | upsertZone z => exact Prod.ext rfl (Registry.ext (Named.firsts_upsert id z c.zones) rfl rfl)
  | removeZone name =>
      exact Prod.ext (congrArg some (Named.has_eq_mem_firsts id name c.zones))
        (Registry.ext (Named.firsts_erase id name c.zones) rfl rfl)
  | upsertView v => exact Prod.ext rfl (Registry.ofConfig_upsertView c v)
  | removeView name =>
      exact Prod.ext (congrArg some (Named.has_eq_mem_firsts Registry.Entry.ofView name c.views))
        (Registry.ext rfl (Named.firsts_erase Registry.Entry.ofView name c.views) rfl)
  | upsertZoneInView view z =>
      rw [perform, Registry.perform, Registry.entryOrNew_ofConfig, upsertZoneInView_eq,
        Registry.ofConfig_upsertView, name_viewOrNew, Registry.Entry.ofView, Named.firsts_upsert]
      rfl
  | removeZoneInView view name =>
      have hlookup : (Registry.ofConfig c).views.lookup view =
          (c.view? view).map Registry.Entry.ofView := Named.lookup_firsts ..
      rw [perform, Registry.perform, hlookup, hasZoneInView]
      cases h : c.view? view with
      | some v =>
          rw [removeZoneInView_of_some h, Registry.ofConfig_upsertView, Registry.Entry.ofView,
            Named.firsts_erase, Option.any_some, Named.has_eq_mem_firsts id, Option.map_some]
          exact Prod.ext rfl (Registry.ext rfl (congrArg
            (fun key => (Registry.ofConfig c).views.insert key _) (Named.name_eq_of_find? h)) rfl)
      | none =>
          rw [removeZoneInView_of_none h]
          rfl
  | setTrustAnchorsInView view anchors =>
      rw [perform, Registry.perform, Registry.entryOrNew_ofConfig, setTrustAnchorsInView_eq,
        Registry.ofConfig_upsertView, name_viewOrNew]
      rfl
  | setRecursion recursion => rfl

/-- **A run of calls** does to the registry what it does to the configuration. -/
theorem performAll_registry (calls : List Call) :
    ((c.performAll calls).1, Registry.ofConfig (c.performAll calls).2) =
      (Registry.ofConfig c).performAll calls := by
  induction calls generalizing c with
  | nil => rfl
  | cons call calls ih =>
      rw [performAll, Registry.performAll, ← perform_registry, ← ih]

end Config

/-! ## What no call is about -/

/-- What a run of calls has left alone: zones and views that no call is about, in their order; in views
    that were neither put in nor removed, the zones that no call is about, in their order; further views
    of the same name; and all else. -/
structure Spared (calls : List Call) (before after : Config) : Prop where
  zones : after.zones.filter (fun z => !calls.any (·.isAboutZone z.name)) =
    before.zones.filter fun z => !calls.any (·.isAboutZone z.name)
  views : after.views.filter (fun v => !calls.any (·.isAboutView v.name)) =
    before.views.filter fun v => !calls.any (·.isAboutView v.name)
  inView : ∀ view, !calls.any (·.replacesView view) → ∀ v, before.view? view = some v →
    ∃ w, after.view? view = some w ∧ { w with trustAnchors := v.trustAnchors, zones := v.zones } = v ∧
      w.zones.filter (fun z => !calls.any (·.isAboutZoneIn view z.name)) =
        v.zones.filter fun z => !calls.any (·.isAboutZoneIn view z.name)
  further : ∀ view, !calls.any (·.replacesView view) →
    (after.views.filter fun v => v.name = view).tail = (before.views.filter fun v => v.name = view).tail
  options : !calls.any (·.isAboutOptions) → after.options = before.options
  settings : { after.options.getD Options.empty with recursion := none } =
    { before.options.getD Options.empty with recursion := none }
  rest : { after with zones := before.zones, views := before.views, options := before.options } = before

namespace Spared

lemma refl (c : Config) : Spared [] c c where
  zones := rfl
  views := rfl
  inView _ _ v hv := ⟨v, hv, rfl, rfl⟩
  further _ _ := rfl
  options _ := rfl
  settings := rfl
  rest := rfl

lemma filter_trans {α : Type} {p q : α → Bool} {l₀ l₁ l₂ : List α} (h : l₁.filter p = l₀.filter p)
    (h' : l₂.filter q = l₁.filter q) :
    l₂.filter (fun a => p a && q a) = l₀.filter fun a => p a && q a := by
  calc l₂.filter (fun a => p a && q a)
      = (l₂.filter q).filter p := List.filter_filter.symm
    _ = (l₁.filter p).filter q := by
        rw [h', List.filter_filter, List.filter_filter]
        exact List.filter_congr fun a _ => Bool.and_comm ..
    _ = l₀.filter fun a => p a && q a := by
        rw [h, List.filter_filter]
        exact List.filter_congr fun a _ => Bool.and_comm ..

/-- One run after the other leaves alone what both do. -/
lemma append {calls calls' : List Call} {c₀ c₁ c₂ : Config} (h : Spared calls c₀ c₁)
    (h' : Spared calls' c₁ c₂) : Spared (calls ++ calls') c₀ c₂ where
  zones := by
    simp only [List.any_append, Bool.not_or]
    exact filter_trans h.zones h'.zones
  views := by
    simp only [List.any_append, Bool.not_or]
    exact filter_trans h.views h'.views
  inView view hview v hv := by
    simp only [List.any_append, Bool.not_or, Bool.and_eq_true] at hview ⊢
    obtain ⟨w, hw, hframe, hzones⟩ := h.inView view hview.1 v hv
    obtain ⟨w', hw', hframe', hzones'⟩ := h'.inView view hview.2 w hw
    refine ⟨w', hw', ?_, filter_trans hzones hzones'⟩
    rw [← hframe, ← hframe']
  further view hview := by
    rw [List.any_append, Bool.not_or, Bool.and_eq_true] at hview
    exact (h'.further view hview.2).trans (h.further view hview.1)
  options hcalls := by
    rw [List.any_append, Bool.not_or, Bool.and_eq_true] at hcalls
    exact (h'.options hcalls.2).trans (h.options hcalls.1)
  settings := h'.settings.trans h.settings
  rest := by
    rw [← h.rest, ← h'.rest]

variable {call : Call} {c : Config}

/-- The zones at top level were changed, other than in what the call is not about. -/
lemma of_zones {zones : List Zone} (h : zones.filter (fun z => !call.isAboutZone z.name) =
    c.zones.filter fun z => !call.isAboutZone z.name) : Spared [call] c { c with zones := zones } where
  zones := by simpa only [List.any_cons, List.any_nil, Bool.or_false] using h
  views := rfl
  inView _ _ v hv := ⟨v, hv, rfl, rfl⟩
  further _ _ := rfl
  options _ := rfl
  settings := rfl
  rest := rfl

/-- A view that the call is about was put in.  If it does not replace it, only the trust anchors and
    zones that it is about are others. -/
lemma of_upsertView {v : View} (habout : call.isAboutView v.name = true)
    (hview : call.replacesView v.name = true ∨ ∀ u, c.view? v.name = some u →
      { v with trustAnchors := u.trustAnchors, zones := u.zones } = u ∧
        v.zones.filter (fun z => !call.isAboutZoneIn v.name z.name) =
          u.zones.filter fun z => !call.isAboutZoneIn v.name z.name) :
    Spared [call] c (c.upsertView v) where
  zones := rfl
  views := by
    refine Named.filter_upsert (fun u hu => ?_) c.views
    rw [show u.name = v.name from hu, List.any_cons, habout]
    rfl
  inView view hcall u hu := by
    simp only [List.any_cons, List.any_nil, Bool.or_false, Bool.not_eq_true'] at hcall ⊢
    by_cases heq : v.name = view
    · subst heq
      have hkept := hview.resolve_left (by rw [hcall]; exact Bool.false_ne_true) u hu
      exact ⟨v, (Named.find?_upsert v.name v c.views).trans (if_pos rfl), hkept⟩
    · exact ⟨u, (Named.find?_upsert view v c.views).trans ((if_neg heq).trans hu), rfl, rfl⟩
  further view _ := Named.tail_filter_upsert view v c.views
  options _ := rfl
  settings := rfl
  rest := rfl

end Spared

namespace Config

/-- **A call** leaves alone what it is not about. -/
theorem spared_perform (c : Config) (call : Call) : Spared [call] c (c.perform call).2 := by
  cases call with
  | upsertZone z =>
      refine .of_zones (Named.filter_upsert (fun u hu => ?_) c.zones)
      simp [Call.isAboutZone, show u.name = z.name from hu]
  | removeZone name =>
      refine .of_zones (Named.filter_erase (fun u hu => ?_) c.zones)
      simp [Call.isAboutZone, show u.name = name from hu]
  | upsertView v => exact .of_upsertView (decide_eq_true rfl) (Or.inl (decide_eq_true rfl))
  | removeView name =>
      have hne : ∀ view, !([Call.removeView name].any (·.replacesView view)) → view ≠ name := by
        rintro view hcall rfl
        simp [Call.replacesView] at hcall
      refine ⟨rfl, ?_, fun view hcall v hv => ?_, fun view hcall => ?_, fun _ => rfl, rfl, rfl⟩
      · refine Named.filter_erase (fun u hu => ?_) c.views
        simp [Call.isAboutView, Call.replacesView, show u.name = name from hu]
      · exact ⟨v, (Named.find?_erase name view c.views).trans ((if_neg (hne view hcall)).trans hv),
          rfl, rfl⟩
      · refine congrArg List.tail (Named.filter_erase (fun u hu => ?_) c.views)
        exact decide_eq_false fun h => hne view hcall (h.symm.trans hu)
  | upsertZoneInView view z =>
      rw [perform, upsertZoneInView_eq]
      refine .of_upsertView (decide_eq_true (c.name_viewOrNew view).symm) (Or.inr fun u hu => ?_)
      dsimp only at hu ⊢
      rw [name_viewOrNew] at hu
      rw [viewOrNew_of_some hu]
      refine ⟨rfl, Named.filter_upsert (fun x hx => ?_) u.zones⟩
      have hname : u.name = view := Named.name_eq_of_find? hu
      simp [Call.isAboutZoneIn, hname, show x.name = z.name from hx]
  | removeZoneInView view name =>
      cases h : c.view? view with
      | none =>
          rw [perform, removeZoneInView_of_none h]
          exact .of_zones rfl
      | some v =>
          have hname : v.name = view := Named.name_eq_of_find? h
          rw [perform, removeZoneInView_of_some h]
          refine .of_upsertView (decide_eq_true hname.symm) (Or.inr fun u hu => ?_)
          dsimp only at hu ⊢
          rw [hname, h] at hu
          obtain rfl := Option.some.inj hu
          refine ⟨rfl, Named.filter_erase (fun x hx => ?_) v.zones⟩
          simp [Call.isAboutZoneIn, hname, show x.name = name from hx]
  | setTrustAnchorsInView view anchors =>
      rw [perform, setTrustAnchorsInView_eq]
      refine .of_upsertView (decide_eq_true (c.name_viewOrNew view).symm) (Or.inr fun u hu => ?_)
      dsimp only at hu ⊢
      rw [name_viewOrNew] at hu
      rw [viewOrNew_of_some hu]
      exact ⟨rfl, rfl⟩
  | setRecursion recursion =>
      exact ⟨rfl, rfl, fun _ _ v hv => ⟨v, hv, rfl, rfl⟩, fun _ _ => rfl,
        fun h => absurd h Bool.false_ne_true, rfl, rfl⟩

/-- **A run of calls** leaves alone what none of them is about. -/
theorem spared_performAll (c : Config) (calls : List Call) : Spared calls c (c.performAll calls).2 := by
  induction calls generalizing c with
  | nil => exact .refl c
  | cons call calls ih => exact (spared_perform c call).append (ih _)

/-! ## Unique names -/

/-- No two zones at top level, no two views and no two zones of a view have the same name. -/
structure HasUniqueNames (c : Config) : Prop where
  zones : Named.Unique c.zones
  views : Named.Unique c.views
  inView : ∀ v ∈ c.views, Named.Unique v.zones

namespace HasUniqueNames

variable {c : Config}

lemma upsertView (h : c.HasUniqueNames) {v : View} (hv : Named.Unique v.zones) :
    (c.upsertView v).HasUniqueNames where
  zones := h.zones
  views := h.views.upsert v
  inView u hu := by
    rcases Named.mem_upsert hu with rfl | hu
    · exact hv
    · exact h.inView u hu

lemma viewOrNew (h : c.HasUniqueNames) (name : Text) : Named.Unique (c.viewOrNew name).zones := by
  rw [Config.viewOrNew]
  cases hview : c.view? name with
  | none => exact List.nodup_nil
  | some v => exact h.inView v (List.mem_of_find?_eq_some hview)

/-- A call keeps names unique, if it puts in no view in which they are not. -/
lemma perform (h : c.HasUniqueNames) {call : Call}
    (hcall : ∀ v, call = .upsertView v → Named.Unique v.zones) : (c.perform call).2.HasUniqueNames := by
  cases call with
  | upsertZone z => exact ⟨h.zones.upsert z, h.views, h.inView⟩
  | removeZone name => exact ⟨h.zones.erase name, h.views, h.inView⟩
  | upsertView v => exact h.upsertView (hcall v rfl)
  | removeView name =>
      exact ⟨h.zones, h.views.erase name, fun v hv => h.inView v (List.mem_of_mem_filter hv)⟩
  | upsertZoneInView view z =>
      rw [Config.perform, upsertZoneInView_eq]
      exact h.upsertView ((h.viewOrNew view).upsert z)
  | removeZoneInView view name =>
      rw [Config.perform]
      cases hview : c.view? view with
      | none => rwa [removeZoneInView_of_none hview]
      | some v =>
          rw [removeZoneInView_of_some hview]
          exact h.upsertView ((h.inView v (List.mem_of_find?_eq_some hview)).erase name)
  | setTrustAnchorsInView view anchors =>
      rw [Config.perform, setTrustAnchorsInView_eq]
      exact h.upsertView (h.viewOrNew view)
  | setRecursion recursion => exact ⟨h.zones, h.views, h.inView⟩

/-- **A run of calls** keeps names unique. -/
lemma performAll (h : c.HasUniqueNames) {calls : List Call}
    (hcalls : ∀ v, .upsertView v ∈ calls → Named.Unique v.zones) :
    (c.performAll calls).2.HasUniqueNames := by
  induction calls generalizing c with
  | nil => exact h
  | cons call calls ih =>
      refine ih (h.perform fun v hv => hcalls v ?_) fun v hv => hcalls v (List.mem_cons_of_mem _ hv)
      exact hv ▸ List.mem_cons_self ..

end HasUniqueNames

/-! ## Zones by name -/

/-- **A zone by its name** is what the name is bound to at top level, or else in the first view in which
    it is bound. -/
theorem zone?_eq_some_iff (c : Config) (name : Text) (z : Zone) : c.zone? name = some z ↔
    (Registry.ofConfig c).zones.lookup name = some z ∨
      (Registry.ofConfig c).zones.lookup name = none ∧
        ∃ before v after, c.views = before ++ v :: after ∧
          (∀ u ∈ before, (Registry.Entry.ofView u).zones.lookup name = none) ∧
          (Registry.Entry.ofView v).zones.lookup name = some z := by
  have hlookup : ∀ l : List Zone, (firsts id l).lookup name = Named.find? name l := fun l =>
    (Named.lookup_firsts id l name).trans Option.map_id'
  rw [zone?, Option.or_eq_some_iff]
  simp only [Registry.ofConfig, Registry.Entry.ofView, hlookup, List.findSome?_eq_some_iff, and_comm]

/-- **Any run of calls** is one on finite maps: it binds and unbinds the names of the zones and views
    that are found first, with the same answers.  A zone is looked up at top level and then in the views
    in their order.  What no call is about is left alone.  If names were unique, and are in each view
    that is put in, then they still are. -/
theorem performAll_spec (c : Config) (calls : List Call) :
    ((c.performAll calls).1, Registry.ofConfig (c.performAll calls).2) =
        (Registry.ofConfig c).performAll calls ∧
      (∀ name z, (c.performAll calls).2.zone? name = some z ↔
        ((Registry.ofConfig c).performAll calls).2.zones.lookup name = some z ∨
          ((Registry.ofConfig c).performAll calls).2.zones.lookup name = none ∧
            ∃ before v after, (c.performAll calls).2.views = before ++ v :: after ∧
              (∀ u ∈ before, (Registry.Entry.ofView u).zones.lookup name = none) ∧
              (Registry.Entry.ofView v).zones.lookup name = some z) ∧
      Spared calls c (c.performAll calls).2 ∧
      (c.HasUniqueNames → (∀ v, .upsertView v ∈ calls → Named.Unique v.zones) →
        (c.performAll calls).2.HasUniqueNames) := by
  have hregistry := c.performAll_registry calls
  refine ⟨hregistry, fun name z => ?_, c.spared_performAll calls, fun h => h.performAll⟩
  rw [← hregistry]
  exact zone?_eq_some_iff _ name z

/-- A view of the given name, with empty zones of the given names. -/
def viewOf (name : Text) (zones : List Text) : View :=
  { View.empty name with zones := zones.map .empty }

/-- Zones at top level and in two views.  There is a zone `a` in all three places. -/
def threefold : Config :=
  { empty with
    zones := [.empty "a", .empty "b"]
    views := [viewOf "v" ["a", "c"], viewOf "w" ["a", "d"]] }

/-- The first view is replaced with all its zones, zones come and go in both, one moves to top level, the
    second view is removed, and a third is created by what is said about it. -/
def replacing : List Call :=
  [.upsertView (viewOf "v" ["c", "e"]), .upsertZoneInView "v" (.empty "f"),
    .removeZoneInView "v" "a", .removeZoneInView "v" "c", .upsertZoneInView "w" (.empty "e"),
    .removeZone "a", .upsertZone (.empty "c"), .removeView "w", .setTrustAnchorsInView "x" ⟨[]⟩,
    .removeZoneInView "w" "e", .setRecursion true]

/-- What was put in and not removed is there, with unique names. -/
theorem performAll_spec_replacing :
    threefold.HasUniqueNames ∧ (∀ v, .upsertView v ∈ replacing → Named.Unique v.zones) ∧
      (threefold.performAll replacing).1 = [none, none, some false, some true, none, some true, none,
        some true, none, some false, none] ∧
      (threefold.performAll replacing).2.zones.map (·.name) = ["b", "c"] ∧
      (threefold.performAll replacing).2.views.map (fun v => (v.name, v.zones.map (·.name))) =
        ([("v", ["e", "f"]), ("x", [])] : List (Text × List Text)) ∧
      (threefold.performAll replacing).2.HasUniqueNames := by
  have hunique : threefold.HasUniqueNames :=
    ⟨by decide +kernel, by decide +kernel, by decide +kernel⟩
  have hput : ∀ v, .upsertView v ∈ replacing → Named.Unique v.zones := by
    intro v hv
    simp only [replacing, List.mem_cons, reduceCtorEq, Call.upsertView.injEq, List.not_mem_nil,
      or_false] at hv
    rw [hv]
    decide +kernel
  exact ⟨hunique, hput, by decide +kernel, by decide +kernel, by decide +kernel,
    (performAll_spec threefold replacing).2.2.2 hunique hput⟩

end Config

end NameServerConf
