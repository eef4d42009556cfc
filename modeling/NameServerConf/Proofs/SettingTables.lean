import Mathlib
import NameServerConf.Proofs.Assignments

/-!
# Settings as tables

What is known about settings stands in three tables: their values, their help texts and their kinds.
In `Tables` they stand side by side.  What is asked of them looks an entry up, or subscripts a table,
and then there is an entry even where there was none (`Tables.subscript`).

**Calls.**  A `Call` does to the tables what it does to the settings and gives the same answer
(`Tables.Describes.perform`), and so does a run of calls.  A loop over one table that subscripts the
others finds an entry every time, for its table never has a name that the others have not.

**Readings.**  So a reading leaves the tables alone.  Only a name that is read as a number may have no
value (`Tables.Describes.perform_of_isReading`).
-/

namespace NameServerConf

namespace Text

/-- The order of names is the one that lists of bytes have. -/
lemma before_iff (s t : Text) : before s t = true ↔ compare s t = .lt := by
  fun_induction before s t with
  | case1 s => cases s <;> simp
  | case2 b t => simp
  | case3 a s b t ih =>
      rw [Bool.or_eq_true, Bool.and_eq_true, decide_eq_true_eq, decide_eq_true_eq, ih,
        List.compare_cons_cons, Ordering.then_eq_lt, Std.compare_eq_lt (a := a),
        Std.compare_eq_iff_eq]

end Text

namespace Settings

/-! ## Entries in order -/

section InOrder

variable {α : Type} {entries : List (Text × Setting)} {name : Text} {x : Setting}

/-- The names stand in their order, each of them once. -/
def InOrder (l : List (Text × α)) : Prop := l.Pairwise fun a b => compare a.1 b.1 = .lt

/-- Entries in order are told by what they are. -/
lemma InOrder.ext {l l' : List (Text × α)} (h : InOrder l) (h' : InOrder l')
    (hmem : ∀ entry, entry ∈ l ↔ entry ∈ l') : l = l' := by
  have hasymm : Std.Antisymm fun a b : Text × α => compare a.1 b.1 = .lt :=
    ⟨fun _ _ hab hba => absurd hba (Std.OrientedCmp.not_lt_of_lt hab)⟩
  have hirrefl : Std.Irrefl fun a b : Text × α => compare a.1 b.1 = .lt :=
    ⟨fun _ h => absurd h (Std.OrientedCmp.not_lt_of_lt h)⟩
  exact List.Pairwise.eq_of_mem_iff h h' hmem

lemma mem_of_mem_insert {entry : Text × Setting} (h : entry ∈ insert name x entries) :
    entry = (name, x) ∨ entry ∈ entries := by
  fun_induction insert name x entries with
  | case1 => exact .inl (List.mem_singleton.mp h)
  | case2 y rest => exact (List.mem_cons.mp h).imp_right (List.mem_cons_of_mem _)
  | case3 key y rest => exact List.mem_cons.mp h
  | case4 key y rest _ _ ih =>
      rcases List.mem_cons.mp h with rfl | h
      · exact .inr (List.mem_cons_self ..)
      · exact (ih h).imp_right (List.mem_cons_of_mem _)

/-- Putting an entry in keeps the order. -/
lemma InOrder.insert (h : InOrder entries) : InOrder (insert name x entries) := by
  fun_induction Settings.insert name x entries with
  | case1 => exact List.pairwise_singleton _ _
  | case2 y rest => exact h.of_cons.cons fun entry hentry => List.rel_of_pairwise_cons h hentry
  | case3 key y rest _ hbefore =>
      have hkey : compare name key = .lt := (Text.before_iff name key).mp hbefore
      refine List.Pairwise.cons (fun entry hentry => ?_) h
      rcases List.mem_cons.mp hentry with rfl | hentry
      · exact hkey
      · exact Std.TransCmp.lt_trans hkey (List.rel_of_pairwise_cons h hentry)
  | case4 key y rest hne hbefore ih =>
      have hkey : compare key name = .lt := by
        rw [Text.before_iff] at hbefore
        cases horder : compare key name with
        | lt => rfl
        | eq => exact absurd (Std.compare_eq_iff_eq.mp horder) hne
        | gt => exact absurd (Std.OrientedCmp.gt_iff_lt.mp horder) hbefore
      refine (ih h.of_cons).cons fun entry hentry => ?_
      rcases mem_of_mem_insert hentry with rfl | hentry
      · exact hkey
      · exact List.rel_of_pairwise_cons h hentry

/-- An entry is the one of its name. -/
lemma InOrder.lookup_eq_some_iff (h : InOrder entries) :
    lookup name entries = some x ↔ (name, x) ∈ entries := by
  induction entries with
  | nil => simp [lookup]
  | cons entry rest ih =>
      obtain ⟨key, y⟩ := entry
      rw [lookup, List.mem_cons, Prod.mk.injEq]
      split
      next hkey =>
        subst hkey
        have hrest : (key, x) ∉ rest := fun hmem => by
          have hlt : compare key key = .lt := List.rel_of_pairwise_cons h hmem
          exact Std.OrientedCmp.not_lt_of_lt hlt hlt
        simp [hrest, eq_comm]
      next hkey => simp [ih h.of_cons, Ne.symm hkey]

end InOrder

/-! ## Declarations -/

/-- The declaration of a setting, if there is one. -/
def declarationOf (s : Settings) (n : Text) : Option Declaration := (s.get? n).bind (·.declared)

lemma isDeclared_iff (s : Settings) (n : Text) :
    s.IsDeclared n ↔ (s.declarationOf n).isSome = true := by
  rw [IsDeclared, declarationOf]
  cases s.get? n <;> simp

lemma declarationOf_put (s : Settings) (name n : Text) (x : Setting) :
    (s.put name x).declarationOf n = if n = name then x.declared else s.declarationOf n := by
  rw [declarationOf, get?_put]
  split <;> rfl

/-- The help text of an entry that was declared, with its name. -/
def described (entry : Text × Setting) : Option (Text × Text) :=
  entry.2.declared.map fun d => (entry.1, d.help)

/-! ## Calls -/

/-- What may be asked of settings, again and again. -/
inductive Call
  /-- Declares a setting and gives it a value; with `none`, the value it has, or an empty one. -/
  | declare (name help : Text) (kind : SettingKind) (value : Option Text)
  /-- Reads the arguments of a command line. -/
  | arguments (lax : Bool) (args : List Text)
  /-- Reads a settings file, if there is one. -/
  | file (lax : Bool) (content : Option Text)
  | value (name : Text)
  | isSet (name : Text)
  | isEmpty (name : Text)
  | isOn (name : Text)
  | number (name : Text) (default : Int)
  | choice (name : Text) (choices : List Text)
  | help (name : Text)
  | helpText (start : Text)
  | fileText
  | commands

namespace Call

/-- The name that a call declares. -/
def declared? : Call → Option Text
  | declare name .. => some name
  | _ => none

/-- The name that a call reads as a number. -/
def counted? : Call → Option Text
  | number name _ => some name
  | _ => none

/-- Whether a call only asks for something. -/
def isReading : Call → Bool
  | declare .. => false
  | arguments .. => false
  | file .. => false
  | _ => true

/-- The names that some calls declare. -/
def declaredNames (calls : List Call) : List Text := calls.filterMap declared?

/-- The names that some calls read as numbers. -/
def countedNames (calls : List Call) : List Text := calls.filterMap counted?

lemma mem_filterMap_cons {f : Call → Option Text} {call : Call} {calls : List Call} {n : Text} :
    n ∈ (call :: calls).filterMap f ↔ f call = some n ∨ n ∈ calls.filterMap f := by
  simp only [List.mem_filterMap, List.mem_cons, or_and_right, exists_or, exists_eq_left]

end Call

/-- What a call answers. -/
inductive Answer
  | done
  | text (t : Text)
  | truth (b : Bool)
  | integer (n : Int)
  | words (ws : List Text)

/-- The answer to arguments that were read, perhaps up to one that was refused. -/
def answerTo (answer : Answer) : Option SettingError → Except SettingError Answer
  | some e => .error e
  | none => .ok answer

/-- A call, and its answer or why there is none. -/
def perform (s : Settings) : Call → Except SettingError Answer × Settings
  | .declare name help kind value =>
    (.ok .done, s.declare name help kind (value.getD ((s.get? name).elim [] (·.value))))
  | .arguments lax args =>
    let (after, e) := acceptArguments lax args s
    (answerTo (.words after.commands) e, after)
  | .file lax content =>
    match content with
    | some text =>
      let (after, e) := acceptFile lax text s
      (answerTo (.truth true) e, after)
    | none => (.ok (.truth false), s)
  | .value name => ((s.value name).map .text, s)
  | .isSet name => (.ok (.truth (s.isSet name)), s)
  | .isEmpty name => (.ok (.truth (s.isEmpty name)), s)
  | .isOn name => ((s.isOn name).map .truth, s)
  | .number name default =>
    let (after, n) := s.number name default
    (n.map .integer, after)
  | .choice name choices => ((s.choice name choices).map .text, s)
  | .help name => (.ok (.text (s.help name)), s)
  | .helpText start => (.ok (.text (s.helpText start)), s)
  | .fileText => (.ok (.text s.fileText), s)
  | .commands => (.ok (.words s.commands), s)

/-- One call after the other, also after one that failed, and their answers. -/
def performAll (s : Settings) : List Call → List (Except SettingError Answer) × Settings
  | [] => ([], s)
  | call :: calls =>
    let (answers, after) := (s.perform call).2.performAll calls
    ((s.perform call).1 :: answers, after)

end Settings

/-! ## Tables -/

/-- Entries by name, in the order of the names. -/
abbrev Table (α : Type) := Std.ExtTreeMap Text α

/-- What is known about the settings, in one table each, and the command words. -/
structure Tables where
  values : Table Text
  helps : Table Text
  kinds : Table SettingKind
  commands : List Text

namespace Tables

open Settings (Answer answerTo described extended numberOf usage withHelp)

/-- No settings. -/
def empty : Tables := ⟨∅, ∅, ∅, []⟩

section Subscript

variable {α : Type} (m : Table α) (key n : Text) (x : α)

/-- The entry of a key, and the table with this entry, which is made if there is none. -/
def subscript [Inhabited α] : α × Table α := (m.getD key default, m.insertIfNew key default)

lemma getElem?_insert : (m.insert key x)[n]? = if n = key then some x else m[n]? := by
  rw [Std.ExtTreeMap.getElem?_insert]
  simp only [Std.compare_eq_iff_eq, eq_comm (a := key)]

variable {m key} [Inhabited α]

lemma subscript_fst : (subscript m key).1 = m[key]?.getD default :=
  Std.ExtTreeMap.getD_eq_getD_getElem?

lemma subscript_of_mem (h : key ∈ m) : (subscript m key).2 = m :=
  Std.ExtTreeMap.ext_getElem? fun n => by
    rw [subscript, Std.ExtTreeMap.getElem?_insertIfNew, if_neg fun hnot => hnot.2 h]

/-- Subscripting finds the entry that there is. -/
lemma subscript_of_getElem? {x : α} (h : m[key]? = some x) : subscript m key = (x, m) := by
  have hmem : key ∈ m := by
    rw [Std.ExtTreeMap.mem_iff_isSome_getElem?, h]
    rfl
  exact Prod.ext (by rw [subscript_fst, h, Option.getD_some]) (subscript_of_mem hmem)

lemma subscript_of_notMem (h : key ∉ m) : (subscript m key).2 = m.insert key default :=
  Std.ExtTreeMap.ext_getElem? fun n => by
    rw [subscript, Std.ExtTreeMap.getElem?_insertIfNew, Std.ExtTreeMap.getElem?_insert]
    simp only [h, not_false_eq_true, and_true]

lemma getElem?_subscript :
    (subscript m key).2[n]? = if n = key then some (m[key]?.getD default) else m[n]? := by
  by_cases h : key ∈ m
  · obtain ⟨x, hx⟩ := Option.isSome_iff_exists.mp (Std.ExtTreeMap.mem_iff_isSome_getElem?.mp h)
    rw [subscript_of_mem h, hx]
    split
    next hn => rw [hn, hx, Option.getD_some]
    next => rfl
  · rw [subscript_of_notMem h, getElem?_insert, Std.ExtTreeMap.getElem?_eq_none h, Option.getD_none]

/-- Making an entry that is then written makes no difference. -/
lemma insert_subscript : (subscript m key).2.insert key x = m.insert key x :=
  Std.ExtTreeMap.ext_getElem? fun n => by
    rw [getElem?_insert, getElem?_insert]
    split
    next => rfl
    next hn => rw [getElem?_subscript, if_neg hn]

end Subscript

/-- Declares a setting; its value is written into the entry that its table has then. -/
def declare (t : Tables) (name help : Text) (kind : SettingKind) (value : Option Text) : Tables :=
  let values := (subscript t.values name).2
  { t with
    helps := t.helps.insert name help
    kinds := t.kinds.insert name kind
    values := value.elim values (values.insert name) }

/-- Does what an argument asks for. -/
def accept (lax : Bool) (t : Tables) (a : Argument) : Except SettingError Tables :=
  match a with
  | .command word => .ok { t with commands := t.commands ++ [word] }
  | .assign name value more =>
    if name.trim = [] then .ok t
    else if t.values.contains name.trim then
      let (old, values) := subscript t.values name.trim
      let new := if more then extended old value.trim else value.trim
      .ok { t with values := values.insert name.trim new }
    else if lax then .ok t else .error (.unknownParameter name.trim)

/-- Does what some arguments ask for, up to the first that is refused. -/
def acceptAll (lax : Bool) : List Text → Tables → Tables × Option SettingError
  | [], t => (t, none)
  | a :: as, t =>
    match t.accept lax (.ofText a) with
    | .ok next => acceptAll lax as next
    | .error e => (t, some e)

/-- The value of a setting. -/
def value (t : Tables) (name : Text) : Except SettingError Text :=
  match t.values[name]? with
  | some v => .ok v
  | none => .error (.undefined name)

/-- The help texts of those settings in a list of them whose names begin with `wanted`. -/
def helpLines (t : Tables) (wanted : Text) : List (Text × Text) → Text × Tables
  | [] => ([], t)
  | (name, help) :: rest =>
    if wanted.isPrefixOf name then
      let (kind, kinds) := subscript t.kinds name
      let (lines, after) := helpLines { t with kinds } wanted rest
      (withHelp (usage name kind) help ++ lines, after)
    else helpLines t wanted rest

/-- The settings in a list of them as lines of a settings file. -/
def fileLines (t : Tables) : List (Text × Text) → Text × Tables
  | [] => ([], t)
  | (name, help) :: rest =>
    let (kind, kinds) := subscript t.kinds name
    if kind = .command then fileLines { t with kinds } rest
    else
      let (value, values) := subscript t.values name
      let (lines, after) := fileLines { t with kinds, values } rest
      (withHelp ("  " ++ name ++ "=" ++ value) help ++ lines, after)

/-- A call, and its answer or why there is none. -/
def perform (t : Tables) : Settings.Call → Except SettingError Answer × Tables
  | .declare name help kind value => (.ok .done, t.declare name help kind value)
  | .arguments lax args =>
    let (after, e) := acceptAll lax (args.map Text.untilNul) { t with commands := [] }
    (answerTo (.words after.commands) e, after)
  | .file lax content =>
    match content with
    | some text =>
      let (after, e) := acceptAll lax (Settings.argumentsOf text) t
      (answerTo (.truth true) e, after)
    | none => (.ok (.truth false), t)
  | .value name => ((t.value name).map .text, t)
  | .isSet name => (.ok (.truth (t.values.contains name)), t)
  | .isEmpty name => (.ok (.truth (t.values[name]?.all (· = []))), t)
  | .isOn name => ((t.value name).map fun v : Text => .truth (v ≠ "no" && v ≠ "off"), t)
  | .number name default =>
    let (v, values) := subscript t.values name
    ((if v = [] then .ok default else numberOf name v).map .integer, { t with values })
  | .choice name choices =>
    (t.value name >>= fun v =>
      if choices.contains v then .ok (.text v) else .error (.notAChoice name v choices), t)
  | .help name => (.ok (.text (t.helps.getD name [])), t)
  | .helpText start =>
    let (lines, after) := t.helpLines (if start = "no" then [] else start) t.helps.toList
    (.ok (.text lines), after)
  | .fileText =>
    let (lines, after) := t.fileLines t.helps.toList
    (.ok (.text lines), after)
  | .commands => (.ok (.words t.commands), t)

/-- One call after the other, also after one that failed, and their answers. -/
def performAll (t : Tables) : List Settings.Call → List (Except SettingError Answer) × Tables
  | [] => ([], t)
  | call :: calls =>
    let (answers, after) := (t.perform call).2.performAll calls
    ((t.perform call).1 :: answers, after)

/-! ## What the tables describe -/

/-- The entries of the tables are those of the settings. -/
structure Describes (t : Tables) (s : Settings) : Prop where
  inOrder : Settings.InOrder s.entries
  values : ∀ n, t.values[n]? = (s.get? n).map (·.value)
  helps : ∀ n, t.helps[n]? = (s.declarationOf n).map (·.help)
  kinds : ∀ n, t.kinds[n]? = (s.declarationOf n).map (·.kind)
  commands : t.commands = s.commands

namespace Describes

variable {t : Tables} {s : Settings}

lemma empty : Tables.empty.Describes Settings.empty :=
  ⟨List.Pairwise.nil, fun _ => rfl, fun _ => rfl, fun _ => rfl, rfl⟩

variable (h : t.Describes s)
include h

lemma contains_eq (name : Text) : t.values.contains name = (s.get? name).isSome := by
  rw [Std.ExtTreeMap.contains_eq_isSome_getElem?, h.values, Option.isSome_map]

lemma mem_values_iff (name : Text) : name ∈ t.values ↔ s.isSet name = true := by
  rw [Std.ExtTreeMap.mem_iff_contains, h.contains_eq, Settings.isSet]

lemma mem_helps_iff (name : Text) : name ∈ t.helps ↔ s.IsDeclared name := by
  rw [Std.ExtTreeMap.mem_iff_isSome_getElem?, h.helps, Option.isSome_map, Settings.isDeclared_iff]

lemma mem_kinds_iff (name : Text) : name ∈ t.kinds ↔ s.IsDeclared name := by
  rw [Std.ExtTreeMap.mem_iff_isSome_getElem?, h.kinds, Option.isSome_map, Settings.isDeclared_iff]

/-! ### Changes -/

lemma withCommands (words : List Text) :
    ({ t with commands := words } : Tables).Describes { s with commands := words } :=
  ⟨h.inOrder, h.values, h.helps, h.kinds, rfl⟩

/-- Giving a name a value keeps its declaration. -/
lemma putValue (name v : Text) :
    ({ t with values := t.values.insert name v } : Tables).Describes
      (s.put name ⟨v, s.declarationOf name⟩) := by
  have hdeclared : ∀ n, (s.put name ⟨v, s.declarationOf name⟩).declarationOf n = s.declarationOf n := by
    intro n
    rw [Settings.declarationOf_put]
    split
    next hn => rw [hn]
    next => rfl
  refine ⟨h.inOrder.insert, fun n => ?_, fun n => ?_, fun n => ?_, h.commands⟩
  · rw [getElem?_insert, Settings.get?_put, h.values]
    split <;> rfl
  · rw [hdeclared, h.helps]
  · rw [hdeclared, h.kinds]

lemma declare (name help : Text) (kind : SettingKind) (value : Option Text) :
    (t.declare name help kind value).Describes
      (s.declare name help kind (value.getD ((s.get? name).elim [] (·.value)))) := by
  refine ⟨h.inOrder.insert, fun n => ?_, fun n => ?_, fun n => ?_, h.commands⟩
  · rw [Settings.declare, Settings.get?_put, Tables.declare]
    cases value with
    | some v =>
        rw [Option.elim_some, insert_subscript, getElem?_insert, h.values]
        split <;> rfl
    | none =>
        rw [Option.elim_none, getElem?_subscript, h.values, h.values]
        split
        · cases s.get? name <;> rfl
        · rfl
  · rw [Tables.declare, getElem?_insert, Settings.declare, Settings.declarationOf_put, h.helps]
    split <;> rfl
  · rw [Tables.declare, getElem?_insert, Settings.declare, Settings.declarationOf_put, h.kinds]
    split <;> rfl

/-- Subscripting the values makes a name known. -/
lemma touch (name : Text) :
    ({ t with values := (subscript t.values name).2 } : Tables).Describes (s.touch name) := by
  rw [Settings.touch]
  split
  next x hx =>
    have hmem : name ∈ t.values := (h.mem_values_iff name).mpr (by rw [Settings.isSet, hx]; rfl)
    rwa [subscript_of_mem hmem]
  next hnone =>
    have hmem : name ∉ t.values := by
      rw [h.mem_values_iff, Settings.isSet, hnone]
      exact Bool.false_ne_true
    have hput := h.putValue name []
    rw [Settings.declarationOf, hnone] at hput
    rw [subscript_of_notMem hmem]
    exact hput

/-- An argument does to the tables what it does to the settings, or is refused in both. -/
lemma accept (lax : Bool) (a : Argument) :
    match t.accept lax a, s.accept lax a with
    | .ok t', .ok s' => t'.Describes s'
    | .error e, .error e' => e = e'
    | _, _ => False := by
  cases a with
  | command word =>
      simp only [Tables.accept, Settings.accept, h.commands]
      exact h.withCommands _
  | assign name value more =>
      rw [Tables.accept, Settings.accept]
      by_cases hname : name.trim = []
      · simp only [if_pos hname]
        exact h
      · simp only [if_neg hname, h.contains_eq]
        cases hget : s.get? name.trim with
        | none => cases lax with
          | true => exact h
          | false => exact rfl
        | some x =>
            have hvalue : (subscript t.values name.trim).1 = x.value := by
              rw [subscript_fst, h.values, hget]
              rfl
            have hput := h.putValue name.trim (if more then extended x.value value.trim else value.trim)
            rw [Settings.declarationOf, hget] at hput
            simp only [Option.isSome_some, if_true, hvalue, insert_subscript]
            exact hput

/-- So do some arguments, up to the first that is refused. -/
lemma acceptAll (lax : Bool) (args : List Text) :
    (acceptAll lax args t).2 = (s.acceptAll lax args).2 ∧
      (acceptAll lax args t).1.Describes (s.acceptAll lax args).1 := by
  induction args generalizing t s with
  | nil => exact ⟨rfl, h⟩
  | cons arg args ih =>
      have haccept := h.accept lax (.ofText arg)
      rw [Tables.acceptAll, Settings.acceptAll]
      cases ht : t.accept lax (.ofText arg) <;> cases hs : s.accept lax (.ofText arg)
      all_goals rw [ht, hs] at haccept
      · exact ⟨congrArg some haccept, h⟩
      · cases haccept
      · cases haccept
      · exact ih haccept

/-! ### Readings -/

lemma value_eq (name : Text) : t.value name = s.value name := by
  rw [Tables.value, Settings.value, h.values]
  cases s.get? name <;> rfl

lemma help_eq (name : Text) : t.helps.getD name [] = s.help name := by
  rw [Std.ExtTreeMap.getD_eq_getD_getElem?, h.helps, Settings.help, Settings.declarationOf]

lemma number_eq (name : Text) (default : Int) :
    (if (subscript t.values name).1 = [] then .ok default
      else numberOf name (subscript t.values name).1) = (s.number name default).2 := by
  rw [subscript_fst, h.values, Settings.number]
  cases s.get? name <;> rfl

/-- The help texts stand in the order of the settings. -/
lemma toList_helps : t.helps.toList = s.entries.filterMap described := by
  refine Settings.InOrder.ext Std.ExtTreeMap.ordered_keys_toList ?_ fun (n, help) => ?_
  · refine List.pairwise_filterMap.mpr (h.inOrder.imp fun {a b} hab c hc d hd => ?_)
    obtain ⟨_, -, rfl⟩ := Option.map_eq_some_iff.mp hc
    obtain ⟨_, -, rfl⟩ := Option.map_eq_some_iff.mp hd
    exact hab
  · rw [Std.ExtTreeMap.mem_toList_iff_getElem?_eq_some, h.helps, List.mem_filterMap]
    constructor
    · intro hhelp
      obtain ⟨d, hd, rfl⟩ := Option.map_eq_some_iff.mp hhelp
      obtain ⟨x, hx, hd⟩ := Option.bind_eq_some_iff.mp hd
      exact ⟨(n, x), h.inOrder.lookup_eq_some_iff.mp hx, Option.map_eq_some_iff.mpr ⟨d, hd, rfl⟩⟩
    · rintro ⟨⟨name, x⟩, hmem, hhelp⟩
      obtain ⟨d, hd, heq⟩ := Option.map_eq_some_iff.mp hhelp
      obtain ⟨rfl, rfl⟩ := Prod.mk.inj heq
      have hget : s.get? name = some x := h.inOrder.lookup_eq_some_iff.mpr hmem
      exact Option.map_eq_some_iff.mpr ⟨d, Option.bind_eq_some_iff.mpr ⟨x, hget, hd⟩, rfl⟩

lemma subscript_kinds {n : Text} {x : Setting} (hmem : (n, x) ∈ s.entries) {d : Declaration}
    (hd : x.declared = some d) : subscript t.kinds n = (d.kind, t.kinds) := by
  have hget : s.get? n = some x := h.inOrder.lookup_eq_some_iff.mpr hmem
  exact subscript_of_getElem? (by
    rw [h.kinds, Settings.declarationOf, hget, Option.bind_some, hd, Option.map_some])

lemma subscript_values {n : Text} {x : Setting} (hmem : (n, x) ∈ s.entries) :
    subscript t.values n = (x.value, t.values) := by
  have hget : s.get? n = some x := h.inOrder.lookup_eq_some_iff.mpr hmem
  exact subscript_of_getElem? (by rw [h.values, hget, Option.map_some])

/-- Help finds the kind of each setting that it is about. -/
lemma helpLines_eq (wanted : Text) {entries : List (Text × Setting)} (hentries : entries ⊆ s.entries) :
    t.helpLines wanted (entries.filterMap described) =
      (entries.flatMap fun (n, x) =>
        match x.declared with
        | some d => if wanted.isPrefixOf n then withHelp (usage n d.kind) d.help else []
        | none => [], t) := by
  induction entries with
  | nil => rfl
  | cons entry rest ih =>
      obtain ⟨hentry, hrest⟩ := List.cons_subset.mp hentries
      have hlines := ih hrest
      obtain ⟨n, v, _ | d⟩ := entry
      · exact hlines
      · rw [List.filterMap_cons, List.flatMap_cons]
        simp only [described, Option.map_some, helpLines, h.subscript_kinds hentry rfl]
        split
        · rw [hlines]
        · exact hlines

/-- A settings file finds the kind and the value of each setting that it is about. -/
lemma fileLines_eq {entries : List (Text × Setting)} (hentries : entries ⊆ s.entries) :
    t.fileLines (entries.filterMap described) =
      (entries.flatMap fun (n, x) =>
        match x.declared with
        | some d => if d.kind = .command then [] else withHelp ("  " ++ n ++ "=" ++ x.value) d.help
        | none => [], t) := by
  induction entries with
  | nil => rfl
  | cons entry rest ih =>
      obtain ⟨hentry, hrest⟩ := List.cons_subset.mp hentries
      have hlines := ih hrest
      obtain ⟨n, v, _ | d⟩ := entry
      · exact hlines
      · rw [List.filterMap_cons, List.flatMap_cons]
        simp only [described, Option.map_some, fileLines, h.subscript_kinds hentry rfl,
          h.subscript_values hentry]
        split
        · exact hlines
        · rw [hlines]

lemma perform_helpText (start : Text) :
    t.perform (.helpText start) = (.ok (.text (s.helpText start)), t) := by
  rw [Tables.perform, h.toList_helps, h.helpLines_eq _ (List.Subset.refl _)]
  rfl

lemma perform_fileText : t.perform .fileText = (.ok (.text s.fileText), t) := by
  rw [Tables.perform, h.toList_helps, h.fileLines_eq (List.Subset.refl _)]
  rfl

/-- **A call** does to the tables what it does to the settings, and gives the same answer. -/
lemma perform (call : Settings.Call) : (t.perform call).1 = (s.perform call).1 ∧
    (t.perform call).2.Describes (s.perform call).2 := by
  cases call with
  | declare name help kind value => exact ⟨rfl, h.declare name help kind value⟩
  | arguments lax args =>
      obtain ⟨hsame, hafter⟩ := (h.withCommands []).acceptAll lax (args.map Text.untilNul)
      refine ⟨?_, hafter⟩
      rw [Tables.perform, Settings.perform, Settings.acceptArguments]
      simp only [hsame, hafter.commands]
  | file lax content =>
      cases content with
      | none => exact ⟨rfl, h⟩
      | some content =>
          obtain ⟨hsame, hafter⟩ := h.acceptAll lax (Settings.argumentsOf content)
          exact ⟨congrArg (answerTo (.truth true)) hsame, hafter⟩
  | value name => exact ⟨by rw [Tables.perform, Settings.perform, h.value_eq], h⟩
  | isSet name => exact ⟨by rw [Tables.perform, Settings.perform, h.contains_eq, Settings.isSet], h⟩
  | isEmpty name =>
      refine ⟨?_, h⟩
      rw [Tables.perform, Settings.perform, Settings.isEmpty, h.values]
      cases s.get? name <;> rfl
  | isOn name =>
      refine ⟨?_, h⟩
      rw [Tables.perform, Settings.perform, Settings.isOn, h.value_eq]
      cases s.value name <;> rfl
  | number name default =>
      exact ⟨congrArg (Except.map Answer.integer) (h.number_eq name default), h.touch name⟩
  | choice name choices =>
      refine ⟨?_, h⟩
      rw [Tables.perform, Settings.perform, Settings.choice, h.value_eq]
      cases s.value name with
      | error e => rfl
      | ok v =>
          show (if choices.contains v then _ else _) = Except.map _ (if choices.contains v then _ else _)
          split <;> rfl
  | help name => exact ⟨by rw [Tables.perform, Settings.perform, h.help_eq], h⟩
  | helpText start =>
      rw [h.perform_helpText]
      exact ⟨rfl, h⟩
  | fileText =>
      rw [h.perform_fileText]
      exact ⟨rfl, h⟩
  | commands => exact ⟨by rw [Tables.perform, Settings.perform, h.commands], h⟩

/-- A reading leaves the tables alone, if a name that it reads as a number has a value. -/
lemma perform_of_isReading {call : Settings.Call} (hreading : call.isReading = true)
    (hcounted : ∀ name, call.counted? = some name → s.isSet name = true) :
    (t.perform call).2 = t := by
  cases call with
  | declare => cases hreading
  | arguments => cases hreading
  | file => cases hreading
  | number name default =>
      have hmem : name ∈ t.values := (h.mem_values_iff name).mpr (hcounted name rfl)
      rw [Tables.perform]
      simp only [subscript_of_mem hmem]
  | helpText start => rw [h.perform_helpText]
  | fileText => rw [h.perform_fileText]
  | value => rfl
  | isSet => rfl
  | isEmpty => rfl
  | isOn => rfl
  | choice => rfl
  | help => rfl
  | commands => rfl

/-- Reading a name without a value as a number gives it an empty one. -/
lemma perform_number {name : Text} (hnone : s.isSet name = false) (default : Int) :
    (t.perform (.number name default)).2 = { t with values := t.values.insert name [] } := by
  have hmem : name ∉ t.values := by
    rw [h.mem_values_iff, hnone]
    exact Bool.false_ne_true
  rw [Tables.perform]
  simp only [subscript_of_notMem hmem]
  rfl

/-- **A run of calls** does to the tables what it does to the settings, and gives the same answers. -/
lemma performAll (calls : List Settings.Call) : (t.performAll calls).1 = (s.performAll calls).1 ∧
    (t.performAll calls).2.Describes (s.performAll calls).2 := by
  induction calls generalizing t s with
  | nil => exact ⟨rfl, h⟩
  | cons call calls ih =>
      obtain ⟨hanswer, hafter⟩ := h.perform call
      obtain ⟨hanswers, hend⟩ := ih hafter
      exact ⟨congrArg₂ List.cons hanswer hanswers, hend⟩

end Describes

end Tables

end NameServerConf
