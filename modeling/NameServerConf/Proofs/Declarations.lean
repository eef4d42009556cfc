import NameServerConf.Proofs.SettingTables

/-!
# Which settings there are

Only a declaration should make a setting known.  This module says who does, in any run of calls, also
of calls that fail.

**Calls.**  A call declares a name, makes a name known that it reads as a number, or changes nothing
about what is known (`Settings.perform_cases`).

**Runs.**  A name has a help text and a kind exactly if it was declared.  It has a value if it was
declared, but also if it was read as a number: `Settings.performAll_tables`.
-/

namespace NameServerConf

namespace Settings

open Call (declaredNames countedNames)

variable {s s' : Settings}

/-- What is known about a name: its declaration, or only that it has a value. -/
def known? (s : Settings) (n : Text) : Option (Option Declaration) := (s.get? n).map (·.declared)

lemma isSet_eq_isSome (s : Settings) (n : Text) : s.isSet n = (s.known? n).isSome := by
  rw [isSet, known?, Option.isSome_map]

lemma isDeclared_iff_known? (s : Settings) (n : Text) :
    s.IsDeclared n ↔ ∃ d, s.known? n = some (some d) := by
  rw [isDeclared_iff, Option.isSome_iff_exists, declarationOf, known?]
  cases s.get? n <;> simp

lemma known?_put (s : Settings) (name n : Text) (x : Setting) :
    (s.put name x).known? n = if n = name then some x.declared else s.known? n := by
  rw [known?, get?_put]
  split <;> rfl

/-- Giving a setting a value does not declare anything. -/
lemma known?_accept {lax : Bool} {a : Argument} (h : s.accept lax a = .ok s') (n : Text) :
    s'.known? n = s.known? n := by
  cases a with
  | command word =>
      obtain rfl := Except.ok.inj h
      rfl
  | assign name value more =>
      rw [accept] at h
      split at h
      · rw [Except.ok.inj h]
      · split at h
        next x hx =>
          rw [← Except.ok.inj h, known?_put]
          split
          next hn => rw [hn, known?, hx, Option.map_some]
          next => rfl
        next =>
          split at h
          · rw [Except.ok.inj h]
          · cases h

lemma known?_acceptAll (lax : Bool) (args : List Text) (s : Settings) (n : Text) :
    (acceptAll lax args s).1.known? n = s.known? n := by
  induction args generalizing s with
  | nil => rfl
  | cons arg args ih =>
      rw [acceptAll]
      split
      next after h => exact (ih after).trans (known?_accept h n)
      next => rfl

/-- Making a name known declares nothing. -/
lemma known?_touch (s : Settings) (name n : Text) :
    (s.touch name).known? n =
      if n = name then some ((s.known? name).getD none) else s.known? n := by
  rw [touch]
  split
  next x hx =>
    split
    next hn => rw [hn, known?, hx, Option.map_some, Option.getD_some]
    next => rfl
  next hnone => rw [known?_put, known?, known?, hnone, Option.map_none, Option.getD_none]

/-- **What a call does** to what is known about the names: it declares one, makes one known that it
    reads as a number, or does nothing. -/
lemma perform_cases (s : Settings) (call : Call) :
    (∃ name d, call.declared? = some name ∧ call.counted? = none ∧
      ∀ n, (s.perform call).2.known? n =
        if n = name then some (some d) else s.known? n) ∨
    (∃ name, call.declared? = none ∧ call.counted? = some name ∧
      ∀ n, (s.perform call).2.known? n =
        if n = name then some ((s.known? name).getD none) else s.known? n) ∨
    (call.declared? = none ∧ call.counted? = none ∧
      ∀ n, (s.perform call).2.known? n = s.known? n) := by
  cases call with
  | declare name help kind value =>
      exact .inl ⟨name, ⟨kind, help⟩, rfl, rfl, fun n => known?_put s name n _⟩
  | number name default => exact .inr (.inl ⟨name, rfl, rfl, known?_touch s name⟩)
  | arguments lax args => exact .inr (.inr ⟨rfl, rfl, known?_acceptAll lax _ _⟩)
  | file lax content =>
      cases content with
      | none => exact .inr (.inr ⟨rfl, rfl, fun _ => rfl⟩)
      | some content => exact .inr (.inr ⟨rfl, rfl, known?_acceptAll lax _ s⟩)
  | _ => exact .inr (.inr ⟨rfl, rfl, fun _ => rfl⟩)

/-- A name has a value if it had one, is declared or is read as a number. -/
lemma isSet_perform (s : Settings) (call : Call) (n : Text) :
    (s.perform call).2.isSet n = true ↔
      s.isSet n = true ∨ call.declared? = some n ∨ call.counted? = some n := by
  rw [isSet_eq_isSome, isSet_eq_isSome]
  obtain ⟨name, d, hdeclared, hcounted, h⟩ | ⟨name, hdeclared, hcounted, h⟩ |
    ⟨hdeclared, hcounted, h⟩ := s.perform_cases call
  · rw [h, hdeclared, hcounted]
    split
    next hn => simp [hn]
    next hn => simp [Ne.symm hn]
  · rw [h, hdeclared, hcounted]
    split
    next hn => simp [hn]
    next hn => simp [Ne.symm hn]
  · simp [h, hdeclared, hcounted]

/-- A name is declared if it was or is. -/
lemma isDeclared_perform (s : Settings) (call : Call) (n : Text) :
    (s.perform call).2.IsDeclared n ↔ s.IsDeclared n ∨ call.declared? = some n := by
  rw [isDeclared_iff_known?, isDeclared_iff_known?]
  obtain ⟨name, d, hdeclared, -, h⟩ | ⟨name, hdeclared, -, h⟩ | ⟨hdeclared, -, h⟩ :=
    s.perform_cases call
  · rw [h, hdeclared]
    split
    next hn => simp [hn]
    next hn => simp [Ne.symm hn]
  · rw [h, hdeclared]
    split
    next hn =>
      rw [hn]
      cases s.known? name <;> simp
    next => simp
  · simp [h, hdeclared]

lemma isSet_performAll (calls : List Call) (s : Settings) (n : Text) :
    (s.performAll calls).2.isSet n = true ↔
      s.isSet n = true ∨ n ∈ declaredNames calls ∨ n ∈ countedNames calls := by
  induction calls generalizing s with
  | nil => simp [performAll, declaredNames, countedNames]
  | cons call calls ih =>
      show ((s.perform call).2.performAll calls).2.isSet n = true ↔ _
      rw [ih, isSet_perform, declaredNames, declaredNames, countedNames, countedNames,
        Call.mem_filterMap_cons, Call.mem_filterMap_cons]
      tauto

lemma isDeclared_performAll (calls : List Call) (s : Settings) (n : Text) :
    (s.performAll calls).2.IsDeclared n ↔ s.IsDeclared n ∨ n ∈ declaredNames calls := by
  induction calls generalizing s with
  | nil => simp [performAll, declaredNames]
  | cons call calls ih =>
      show ((s.perform call).2.performAll calls).2.IsDeclared n ↔ _
      rw [ih, isDeclared_perform, declaredNames, declaredNames, Call.mem_filterMap_cons, or_assoc]

end Settings

/-- The names with a value are the ones given, and the tables have entries for the same names. -/
structure Tables.OnlyFor (t : Tables) (names : List Text) : Prop where
  values : ∀ name, name ∈ t.values ↔ name ∈ names
  helps : ∀ name, name ∈ t.helps ↔ name ∈ t.values
  kinds : ∀ name, name ∈ t.kinds ↔ name ∈ t.values

namespace Settings

open Call (declaredNames countedNames)

/-- **Who makes entries**, whatever was asked of settings that were empty once, failures included.
    The settings are what three tables describe, and answer what the tables answer.  A name has a help
    text and a kind exactly if it was declared, and a value exactly if it was declared or read as a
    number.  So only declarations make entries exactly if the names that were read as numbers were
    declared too.  A reading leaves the tables alone, but reading a name without a value as a number
    gives it an empty one. -/
theorem performAll_tables (calls : List Call) :
    let s := (empty.performAll calls).2
    let t := (Tables.empty.performAll calls).2
    (Tables.empty.performAll calls).1 = (empty.performAll calls).1 ∧ t.Describes s ∧
    (∀ name, (name ∈ t.values ↔ s.isSet name = true) ∧
      (name ∈ t.values ↔ name ∈ declaredNames calls ∨ name ∈ countedNames calls) ∧
      (name ∈ t.helps ↔ name ∈ declaredNames calls) ∧
      (name ∈ t.kinds ↔ name ∈ declaredNames calls)) ∧
    (t.OnlyFor (declaredNames calls) ↔ countedNames calls ⊆ declaredNames calls) ∧
    (∀ call : Call, call.isReading = true →
      (∀ name, call.counted? = some name → s.isSet name = true) → (t.perform call).2 = t) ∧
    ∀ name default, s.isSet name = false →
      (t.perform (.number name default)).2 = { t with values := t.values.insert name [] } := by
  intro s t
  obtain ⟨hanswers, hdescribes⟩ := Tables.Describes.empty.performAll calls
  have hvalues : ∀ name, name ∈ t.values ↔
      name ∈ declaredNames calls ∨ name ∈ countedNames calls := fun name =>
    (hdescribes.mem_values_iff name).trans <| (isSet_performAll calls empty name).trans <|
      or_iff_right Bool.false_ne_true
  have hdeclared : ∀ name, s.IsDeclared name ↔ name ∈ declaredNames calls := fun name =>
    (isDeclared_performAll calls empty name).trans <| or_iff_right fun ⟨_, hx, _⟩ => by cases hx
  have hhelps := fun name => (hdescribes.mem_helps_iff name).trans (hdeclared name)
  have hkinds := fun name => (hdescribes.mem_kinds_iff name).trans (hdeclared name)
  refine ⟨hanswers, hdescribes, fun name => ⟨hdescribes.mem_values_iff name, hvalues name,
    hhelps name, hkinds name⟩, ⟨fun honly name hname => ?_, fun hsub => ?_⟩,
    fun call hreading => hdescribes.perform_of_isReading hreading,
    fun name default hnone => hdescribes.perform_number hnone default⟩
  · exact (honly.values name).mp ((hvalues name).mpr (.inr hname))
  · have hall : ∀ name, name ∈ t.values ↔ name ∈ declaredNames calls := fun name =>
      (hvalues name).trans (or_iff_left_of_imp fun h => hsub h)
    exact ⟨hall, fun name => (hhelps name).trans (hall name).symm,
      fun name => (hkinds name).trans (hall name).symm⟩

/-- Read as a number, a name that nobody declared has a value, and neither a help text nor a kind. -/
theorem not_onlyFor_number :
    let calls := [Call.number "ttl" 0]
    let s := (empty.performAll calls).2
    let t := (Tables.empty.performAll calls).2
    (empty.performAll calls).1 = [.ok (.integer 0)] ∧ declaredNames calls = [] ∧
      s.isSet "ttl" = true ∧ ("ttl" : Text) ∈ t.values ∧ ("ttl" : Text) ∉ Tables.empty.values ∧
      ("ttl" : Text) ∉ t.helps ∧ ("ttl" : Text) ∉ t.kinds ∧ ¬ t.OnlyFor (declaredNames calls) := by
  intro calls s t
  have hvalue : ("ttl" : Text) ∈ t.values := Std.ExtTreeMap.mem_insertIfNew_self
  have hhelp : ("ttl" : Text) ∉ t.helps := Std.ExtTreeMap.not_mem_empty
  exact ⟨rfl, rfl, rfl, hvalue, Std.ExtTreeMap.not_mem_empty, hhelp, Std.ExtTreeMap.not_mem_empty,
    fun honly => hhelp ((honly.helps "ttl").mpr hvalue)⟩

end Settings

end NameServerConf
