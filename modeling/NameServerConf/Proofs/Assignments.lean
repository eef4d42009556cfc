import Mathlib.Data.List.Infix
import Mathlib.Data.List.TakeWhile
import NameServerConf.Proofs.Values
import NameServerConf.Settings.Argument

/-!
# Giving a setting a value

An argument made of two hyphens, a name, an equals sign and a value is there to give the setting of
that name the value.  This module says when it does.

**What it asks for.**  An argument is split at its first `+=`, wherever that stands, and only without
one at its first `=`.  So a value with `+=` in it is cut, and what stands before becomes part of the name
(`Argument.ofLong_append`).

**What it does.**  The setting gets the value and nothing else changes, in every state, if the name has
no null byte and the value no `+=` in it.  With any other name or value there is a state in which this is
not so (`Settings.forall_assigned_iff`).
-/

namespace NameServerConf

namespace Text

/-- Stripping a text loses stripped bytes only. -/
lemma mem_strip_iff {p : UInt8 → Bool} {b : UInt8} (hb : p b = false) (s : Text) :
    b ∈ strip p s ↔ b ∈ s := by
  rw [← List.count_pos_iff, count_strip hb, List.count_pos_iff]

lemma untilNul_eq_self {s : Text} (h : Byte.nul ∉ s) : untilNul s = s :=
  List.takeWhile_eq_self_iff.mpr fun b hb => by
    rw [decide_eq_true_eq]
    rintro rfl
    exact h hb

lemma nul_not_mem_untilNul (s : Text) : Byte.nul ∉ untilNul s := fun h => by
  simpa using List.mem_takeWhile_imp h

/-- What stands behind a null byte is not looked at. -/
lemma untilNul_append {s : Text} (h : Byte.nul ∈ s) (t : Text) : untilNul (s ++ t) = untilNul s := by
  induction s with
  | nil => cases h
  | cons a s ih =>
      rw [List.cons_append, untilNul, untilNul, List.takeWhile_cons, List.takeWhile_cons]
      split
      next ha =>
        have hmem : Byte.nul ∈ s :=
          (List.mem_cons.mp h).resolve_left fun hnul => of_decide_eq_true ha hnul.symm
        exact congrArg (a :: ·) (ih hmem)
      next => rfl

end Text

namespace Argument

/-! ## What an argument asks for -/

lemma splitMore?_eq_none_iff (s : Text) :
    splitMore? s = none ↔ ¬ [Byte.plus, Byte.equals] <:+: s := by
  fun_induction splitMore? s with
  | case1 => simp
  | case2 a => simp [List.infix_cons_iff]
  | case3 a b r h =>
      rw [Bool.and_eq_true, decide_eq_true_eq, decide_eq_true_eq] at h
      obtain ⟨rfl, rfl⟩ := h
      exact iff_of_false (by simp) fun hno => hno (List.prefix_append [_, _] r).isInfix
  | case4 a b r h ih =>
      have hprefix : ¬ [Byte.plus, Byte.equals] <+: a :: b :: r := by
        rintro ⟨t, ht⟩
        obtain ⟨rfl, hrest⟩ := List.cons.inj ht
        obtain ⟨rfl, -⟩ := List.cons.inj hrest
        exact h rfl
      have htail : [Byte.plus, Byte.equals] <:+: a :: b :: r ↔
          [Byte.plus, Byte.equals] <:+: b :: r := List.infix_cons_iff.trans (or_iff_right hprefix)
      rw [Option.map_eq_none_iff, ih, htail]

/-- A text without equals signs gives no value. -/
lemma ofLong_of_not_mem {s : Text} (h : Byte.equals ∉ s) : ofLong s = .assign s [] false := by
  have hmore : splitMore? s = none :=
    (splitMore?_eq_none_iff s).mpr fun hmore => h (hmore.subset (by simp))
  have hequals : splitEquals? s = none := by
    clear hmore
    induction s with
    | nil => rfl
    | cons a s ih =>
        rw [List.mem_cons, not_or] at h
        rw [splitEquals?, if_neg (Ne.symm h.1), ih h.2]
        rfl
  rw [ofLong, hmore, hequals]

section Assignment

variable {name : Text} (hequals : Byte.equals ∉ name)
include hequals

/-- The first equals sign is the one behind the name. -/
lemma splitEquals?_append (value : Text) :
    splitEquals? (name ++ Byte.equals :: value) = some (name, value) := by
  induction name with
  | nil => rfl
  | cons a name ih =>
      rw [List.mem_cons, not_or] at hequals
      rw [List.cons_append, splitEquals?, if_neg (Ne.symm hequals.1), ih hequals.2]
      rfl

/-- The first `+=` is in the value, if the name does not end with a plus sign. -/
lemma splitMore?_append (hplus : name.getLast? ≠ some Byte.plus) (value : Text) :
    splitMore? (name ++ Byte.equals :: value) =
      (splitMore? value).map fun (front, more) => (name ++ Byte.equals :: front, more) := by
  induction name with
  | nil => cases value <;> rfl
  | cons a name ih =>
      rw [List.mem_cons, not_or] at hequals
      have hlast : name.getLast? ≠ some Byte.plus := fun h => by
        rw [List.getLast?_cons, h] at hplus
        exact hplus rfl
      obtain ⟨b, r, hbr⟩ := List.exists_cons_of_ne_nil (l := name ++ Byte.equals :: value) (by simp)
      -- the equals sign that comes first follows no plus sign
      have hpair : ¬ (a = Byte.plus && b = Byte.equals) = true := by
        rw [Bool.and_eq_true, decide_eq_true_eq, decide_eq_true_eq]
        rintro ⟨rfl, rfl⟩
        cases name with
        | nil => exact hplus rfl
        | cons c name => exact hequals.2 (by rw [← (List.cons.inj hbr).1]; exact List.mem_cons_self ..)
      rw [List.cons_append, hbr, splitMore?, if_neg hpair, ← hbr, ih hequals.2 hlast, Option.map_map]
      rfl

/-- **What an assignment asks for.**  With `+=` in the value, all before it is taken for the name. -/
lemma ofLong_append (hplus : name.getLast? ≠ some Byte.plus) (value : Text) :
    ofLong (name ++ Byte.equals :: value) =
      match splitMore? value with
      | none => .assign name value false
      | some (front, more) => .assign (name ++ Byte.equals :: front) more true := by
  rw [ofLong, splitMore?_append hequals hplus, splitEquals?_append hequals]
  cases splitMore? value <;> rfl

end Assignment

end Argument

namespace Settings

/-! ## What an argument does -/

variable {name value : Text}

/-- The argument that gives a setting a value. -/
def assignment (name value : Text) : Text :=
  Byte.hyphen :: Byte.hyphen :: (name ++ Byte.equals :: value)

/-- It is read as far as its first null byte. -/
lemma ofText_assignment_of_nul (hnul : Byte.nul ∈ name) (hequals : Byte.equals ∉ name) :
    Argument.ofText (assignment name value).untilNul = .assign name.untilNul [] false := by
  have hcut : (assignment name value).untilNul = Byte.hyphen :: Byte.hyphen :: name.untilNul := by
    rw [← Text.untilNul_append hnul (Byte.equals :: value)]
    rfl
  rw [hcut]
  exact Argument.ofLong_of_not_mem fun h => hequals (List.takeWhile_subset _ h)

lemma ofText_assignment (hnul : Byte.nul ∉ name) (hequals : Byte.equals ∉ name)
    (hplus : name.getLast? ≠ some Byte.plus) (hvalue : Byte.nul ∉ value) :
    Argument.ofText (assignment name value).untilNul =
      match Argument.splitMore? value with
      | none => .assign name value false
      | some (front, more) => .assign (name ++ Byte.equals :: front) more true := by
  have hall : Byte.nul ∉ assignment name value := by
    simp only [assignment, List.mem_cons, List.mem_append, hnul, hvalue, or_false, false_or]
    decide
  rw [Text.untilNul_eq_self hall]
  exact Argument.ofLong_append hequals hplus value

/-- Somebody declared the setting. -/
def IsDeclared (s : Settings) (name : Text) : Prop := ∃ x ∈ s.get? name, x.declared.isSome = true

/-- The setting has the value without the blanks around it, no argument was refused, and all other
    settings and all declarations are as they were. -/
structure Assigned (s : Settings) (name value : Text) (after : Settings × Option SettingError) :
    Prop where
  accepted : after.2 = none
  value : after.1.value name = .ok value.trim
  others : ∀ n, n ≠ name → after.1.get? n = s.get? n
  declared : (after.1.get? name).bind (·.declared) = (s.get? name).bind (·.declared)

lemma acceptArguments_singleton (lax : Bool) (arg : Text) (s : Settings) :
    acceptArguments lax [arg] s =
      match accept lax { s with commands := [] } (.ofText arg.untilNul) with
      | .ok after => (after, none)
      | .error e => ({ s with commands := [] }, some e) := by
  rw [acceptArguments, List.map_singleton, acceptAll]
  cases accept lax { s with commands := [] } (.ofText arg.untilNul) <;> rfl

/-- Asking for an assignment assigns. -/
lemma assigned_of_ofText (hne : name ≠ []) (htrim : name.trim = name)
    (harg : Argument.ofText (assignment name value).untilNul = .assign name value false)
    {s : Settings} (hs : s.IsDeclared name) (lax : Bool) :
    s.Assigned name value (acceptArguments lax [assignment name value] s) := by
  obtain ⟨x, hx, -⟩ := hs
  have hget : ({ s with commands := [] } : Settings).get? name = some x := hx
  rw [acceptArguments_singleton, harg, accept, htrim, if_neg hne, hget]
  refine ⟨rfl, ?_, fun n hn => ?_, ?_⟩
  · rw [Settings.value, get?_put, if_pos rfl]
    rfl
  · rw [get?_put, if_neg hn]
    rfl
  · rw [get?_put, if_pos rfl, hx]
    rfl

/-- Asking for something else does not, in a state that knows no other setting. -/
lemma exists_not_assigned {n more : Text} {add : Bool} (hn : n.trim ≠ name)
    (harg : Argument.ofText (assignment name value).untilNul = .assign n more add) (lax : Bool) :
    ∃ s : Settings, s.IsDeclared name ∧
      ¬ s.Assigned name value (acceptArguments lax [assignment name value] s) := by
  -- the only setting has a value that is not the one to be given
  have hget : ∀ m, (empty.declare name [] .parameter (value.trim ++ [Byte.space])).get? m =
      if m = name then some ⟨value.trim ++ [Byte.space], some ⟨.parameter, []⟩⟩ else none :=
    fun m => get?_put empty name m _
  generalize empty.declare name [] .parameter (value.trim ++ [Byte.space]) = s at hget
  have hname : s.get? name = some ⟨value.trim ++ [Byte.space], some ⟨.parameter, []⟩⟩ := by
    rw [hget, if_pos rfl]
  have hother : ({ s with commands := [] } : Settings).get? n.trim = none :=
    (hget n.trim).trans (if_neg hn)
  refine ⟨s, ⟨_, hname, rfl⟩, fun h => ?_⟩
  have hunchanged : ({ s with commands := [] } : Settings).value name ≠ .ok value.trim := by
    have hget' : ({ s with commands := [] } : Settings).get? name = _ := hname
    rw [Settings.value, hget']
    intro h
    exact absurd (Except.ok.inj h) (by simp)
  have hvalue := h.value
  have haccepted := h.accepted
  rw [acceptArguments_singleton, harg, accept] at hvalue haccepted
  split at hvalue
  next after hok =>
    split at hok
    · obtain rfl := Except.ok.inj hok
      exact hunchanged hvalue
    · rw [hother] at hok
      cases lax with
      | true =>
          obtain rfl := Except.ok.inj hok
          exact hunchanged hvalue
      | false => cases hok
  next => exact hunchanged hvalue

/-- **Giving a setting a value** works in every state exactly if there is no null byte in the name and
    no `+=` in the value. -/
theorem forall_assigned_iff (hne : name ≠ []) (hequals : Byte.equals ∉ name)
    (htrim : name.trim = name) (hplus : name.getLast? ≠ some Byte.plus) (hvalue : Byte.nul ∉ value)
    (lax : Bool) :
    (∀ s : Settings, s.IsDeclared name →
      s.Assigned name value (acceptArguments lax [assignment name value] s)) ↔
        Byte.nul ∉ name ∧ ¬ [Byte.plus, Byte.equals] <:+: value := by
  by_cases hnul : Byte.nul ∈ name
  · have hcut : name.untilNul.trim ≠ name := fun h => by
      have hmem : Byte.nul ∈ name.untilNul.trim := h.symm ▸ hnul
      exact Text.nul_not_mem_untilNul name ((Text.mem_strip_iff (by decide) _).mp hmem)
    obtain ⟨s, hs, hnot⟩ := exists_not_assigned hcut (ofText_assignment_of_nul hnul hequals) lax
    exact iff_of_false (fun hall => hnot (hall s hs)) fun h => h.1 hnul
  · rw [and_iff_right hnul, ← Argument.splitMore?_eq_none_iff]
    have harg := ofText_assignment hnul hequals hplus hvalue
    cases hmore : Argument.splitMore? value with
    | none =>
        rw [hmore] at harg
        exact iff_of_true (fun s hs => assigned_of_ofText hne htrim harg hs lax) rfl
    | some split =>
        obtain ⟨front, more⟩ := split
        rw [hmore] at harg
        have hcut : (name ++ Byte.equals :: front).trim ≠ name := fun h =>
          hequals (h ▸ (Text.mem_strip_iff rfl _).mpr (by simp))
        obtain ⟨s, hs, hnot⟩ := exists_not_assigned hcut harg lax
        exact iff_of_false (fun hall => hnot (hall s hs)) (by simp)

/-- A value with blanks around it and an equals sign in it. -/
theorem forall_assigned_named_conf :
    ("named-conf" : Text) ≠ [] ∧ Byte.equals ∉ ("named-conf" : Text) ∧
      ("named-conf" : Text).trim = "named-conf" ∧
      ("named-conf" : Text).getLast? ≠ some Byte.plus ∧ Byte.nul ∉ (" /etc/a=b+ " : Text) ∧
      ∀ s : Settings, s.IsDeclared "named-conf" →
        s.Assigned "named-conf" " /etc/a=b+ "
          (acceptArguments false [assignment "named-conf" " /etc/a=b+ "] s) := by
  have hne : ("named-conf" : Text) ≠ [] := by decide
  have hequals : Byte.equals ∉ ("named-conf" : Text) := by decide
  have htrim : ("named-conf" : Text).trim = "named-conf" := by decide
  have hplus : ("named-conf" : Text).getLast? ≠ some Byte.plus := by decide
  have hvalue : Byte.nul ∉ (" /etc/a=b+ " : Text) := by decide
  exact ⟨hne, hequals, htrim, hplus, hvalue,
    (forall_assigned_iff hne hequals htrim hplus hvalue false).mpr ⟨by decide, by decide⟩⟩

/-- With `+=` in the value the argument is refused, and the setting keeps the value it has. -/
theorem exists_not_assigned_named_conf :
    let s := empty.declare "named-conf" [] .parameter "/etc/named.conf"
    let after := acceptArguments false [assignment "named-conf" "/etc/a+=b"] s
    s.IsDeclared "named-conf" ∧ after.2 = some (.unknownParameter "named-conf=/etc/a") ∧
      after.1.value "named-conf" = .ok "/etc/named.conf" ∧
      ¬ s.Assigned "named-conf" "/etc/a+=b" after := by
  intro s after
  have hrefused : after.2 = some (.unknownParameter "named-conf=/etc/a") := by decide +kernel
  refine ⟨⟨⟨"/etc/named.conf", some ⟨.parameter, []⟩⟩, by decide +kernel, rfl⟩, hrefused,
    by decide +kernel, fun h => ?_⟩
  have haccepted := h.accepted
  rw [hrefused] at haccepted
  cases haccepted

end Settings

end NameServerConf
