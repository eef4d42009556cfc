import NameServerConf.Text.Basic

/-!
# Lists of named things

Zones and views are kept in the order of the file, and nothing forbids two of the same name.  These
are the operations by name: look up the first, replace the first or append, remove all.
-/

namespace NameServerConf

/-- Things that have a name. -/
class Named (α : Type) where
  name : α → Text

namespace Named

variable {α : Type} [Named α]

/-- The first thing with the given name. -/
def find? (key : Text) (l : List α) : Option α := l.find? (fun a => name a = key)

/-- Puts `a` in the place of the first thing of its name, or at the end. -/
def upsert (a : α) : List α → List α
  | [] => [a]
  | b :: l => if name b = name a then a :: l else b :: upsert a l

/-- Changes the first thing with the given name. -/
def modify (key : Text) (f : α → α) : List α → List α
  | [] => []
  | b :: l => if name b = key then f b :: l else b :: modify key f l

/-- Whether there is a thing with the given name. -/
def has (key : Text) (l : List α) : Bool := l.any (fun a => name a = key)

/-- Removes everything with the given name. -/
def erase (key : Text) (l : List α) : List α := l.filter (fun a => name a ≠ key)

/-! ## What is found afterwards -/

theorem find?_cons (key : Text) (b : α) (l : List α) :
    find? key (b :: l) = if name b = key then some b else find? key l := by
  by_cases h : name b = key <;> simp [find?, h]

/-- The thing that was put in is found by its name, and all else as before. -/
theorem find?_upsert (key : Text) (a : α) (l : List α) :
    find? key (upsert a l) = if name a = key then some a else find? key l := by
  induction l with
  | nil => rw [upsert, find?_cons]
  | cons b l ih =>
    rw [upsert]
    split
    next hb => rw [find?_cons, find?_cons, hb]; split <;> rfl
    next hb =>
      rw [find?_cons, find?_cons, ih]
      split
      next hk => rw [if_neg fun h => hb (hk.trans h.symm)]
      next => rfl

/-- Nothing is found by a name that was removed, and all else as before. -/
theorem find?_erase (key k : Text) (l : List α) :
    find? k (erase key l) = if k = key then none else find? k l := by
  induction l with
  | nil => simp [find?, erase]
  | cons b l ih =>
    rw [find?_cons]
    by_cases hb : name b = key
    · rw [show erase key (b :: l) = erase key l by simp [erase, hb], ih]
      split
      next => rfl
      next hk => rw [if_neg fun h => hk (h.symm.trans hb)]
    · rw [show erase key (b :: l) = b :: erase key l by simp [erase, hb], find?_cons, ih]
      split
      next h => rw [if_neg fun hk => hb (h.trans hk)]
      next => rfl

/-- There is a thing with a name exactly if one is found. -/
theorem has_eq_isSome_find? (key : Text) (l : List α) : has key l = (find? key l).isSome := by
  induction l with
  | nil => rfl
  | cons b l ih =>
    rw [find?_cons]
    by_cases h : name b = key
    · simp [has, h]
    · rw [if_neg h, ← ih]
      simp [has, h]

end Named

end NameServerConf
