import NameServerConf.Clause

/-!
# Address match lists

A match list is a list of terms, each an address, a key, the name of another list, or a list in
braces, and each perhaps negated.  Lists nest to any depth.

Reading takes a term apart into its sign and the rest, and a list in braces into its parts, which
are shorter: that is why reading ends.  A part that starts like a list in braces but is not one
complete brace group is left out with a remark.
-/

namespace NameServerConf

/-- One term of an address match list. -/
inductive MatchTerm
  /-- An address, perhaps with the length of a network. -/
  | address (negated : Bool) (address : Text)
  /-- The holder of a key. -/
  | key (negated : Bool) (name : Text)
  /-- Another match list, by its name. -/
  | acl (negated : Bool) (name : Text)
  /-- A match list in braces. -/
  | nested (negated : Bool) (terms : List MatchTerm)
deriving Inhabited, Repr

namespace MatchTerm

/-! ## Equality -/

mutual

/-- Equality of terms can be decided. -/
def decEq (a b : MatchTerm) : Decidable (a = b) :=
  match a, b with
  | .address n s, .address m t =>
    if h : n = m ∧ s = t then isTrue (by grind) else isFalse (by grind)
  | .key n s, .key m t => if h : n = m ∧ s = t then isTrue (by grind) else isFalse (by grind)
  | .acl n s, .acl m t => if h : n = m ∧ s = t then isTrue (by grind) else isFalse (by grind)
  | .nested n ss, .nested m ts =>
    if h : n = m then
      match decEqList ss ts with
      | isTrue _ => isTrue (by grind)
      | isFalse _ => isFalse (by grind)
    else isFalse (by grind)
  | .address _ _, .key _ _ => isFalse (by grind)
  | .address _ _, .acl _ _ => isFalse (by grind)
  | .address _ _, .nested _ _ => isFalse (by grind)
  | .key _ _, .address _ _ => isFalse (by grind)
  | .key _ _, .acl _ _ => isFalse (by grind)
  | .key _ _, .nested _ _ => isFalse (by grind)
  | .acl _ _, .address _ _ => isFalse (by grind)
  | .acl _ _, .key _ _ => isFalse (by grind)
  | .acl _ _, .nested _ _ => isFalse (by grind)
  | .nested _ _, .address _ _ => isFalse (by grind)
  | .nested _ _, .key _ _ => isFalse (by grind)
  | .nested _ _, .acl _ _ => isFalse (by grind)

/-- Equality of match lists can be decided. -/
def decEqList (a b : List MatchTerm) : Decidable (a = b) :=
  match a, b with
  | [], [] => isTrue rfl
  | s :: ss, t :: ts =>
    match decEq s t, decEqList ss ts with
    | isTrue _, isTrue _ => isTrue (by grind)
    | isFalse _, _ => isFalse (by grind)
    | _, isFalse _ => isFalse (by grind)
  | [], _ :: _ => isFalse (by grind)
  | _ :: _, [] => isFalse (by grind)

end

instance : DecidableEq MatchTerm := decEq

/-! ## Writing -/

/-- The sign of a term. -/
def sign (negated : Bool) : Text := if negated then [Byte.bang] else []

mutual

/-- A term as it is written. -/
def text : MatchTerm → Text
  | .address negated a => sign negated ++ a
  | .key negated k => sign negated ++ Text.clause "key" (Text.quote k)
  | .acl negated name => sign negated ++ Text.quoteUnlessBare name
  | .nested negated ts => sign negated ++ Text.joined (texts ts)

/-- The terms of a list as they are written. -/
def texts : List MatchTerm → List Text
  | [] => []
  | t :: ts => t.text :: texts ts

end

/-- A match list as it is written. -/
def textOfList (ts : List MatchTerm) : Text := Text.joined (texts ts)

/-! ## Reading -/

/-- What looks like an address: a slash, more than one colon, or exactly three full stops. -/
def looksLikeAddress (s : Text) : Bool :=
  s.contains Byte.slash || s.count Byte.colon > 1 || s.count Byte.dot = 3

/-- Splits off the sign of a term: whether it is negated, and the rest without blanks around it. -/
def splitSign (s : Text) : Bool × Text :=
  match Text.trim s with
  | [] => (false, [])
  | b :: r => if b = Byte.bang then (true, Text.trim r) else (false, b :: r)

/-- What follows the word `key` and a blank. -/
def afterKey? (s : Text) : Option Text :=
  match s with
  | k :: e :: y :: b :: r => if [k, e, y] = ("key" : Text) && Byte.isBlank b then some r else none
  | _ => none

theorem length_splitSign_le (s : Text) : (splitSign s).2.length ≤ s.length := by
  have h := Text.length_trim_le s
  unfold splitSign
  split
  · simp
  next b r hs =>
  rw [hs, List.length_cons] at h
  split
  · have := Text.length_trim_le r
    simp only
    omega
  · simpa using h

/-- The inside of a group is shorter by its braces. -/
theorem totalLength_parts_lt {segment inner : Text}
    (h : Text.items .value (splitSign segment).2 = [.group inner true]) :
    Text.totalLength (Text.parts (Text.trim inner)) < segment.length := by
  have h₁ := congrArg List.length (Text.ofItems_items .value (splitSign segment).2)
  have h₂ := length_splitSign_le segment
  have h₃ := Text.totalLength_parts_le (Text.trim inner)
  have h₄ := Text.length_trim_le inner
  rw [h] at h₁
  simp only [Text.ofItems_cons, Text.ofItems_nil, Item.text, List.length_append, List.length_cons,
    List.length_nil, if_true] at h₁
  omega

mutual

/-- One term, from its text. -/
def read (segment : Text) : Noted MatchTerm :=
  let negated := (splitSign segment).1
  let s := (splitSign segment).2
  match afterKey? s with
  | some name => pure (.key negated (Text.unquote name))
  | none =>
    match _h : Text.items .value (splitSign segment).2 with
    | [.group inner true] => do
      let terms ← readParts s (Text.parts (Text.trim inner))
      pure (.nested negated terms)
    | .group _ _ :: _ => do
      Noted.remark (.token .matchList s segment)
      pure (.nested negated [])
    | _ => pure (if looksLikeAddress s then .address negated s else .acl negated (Text.unquote s))
termination_by (segment.length, 0)
decreasing_by exact Prod.Lex.left _ _ (totalLength_parts_lt _h)

/-- The terms of the list `list`, from its parts. -/
def readParts (list : Text) (parts : List Text) : Noted (List MatchTerm) :=
  match parts with
  | [] => pure []
  | part :: rest =>
    if Text.isBrokenGroup part then do
      Noted.remark (.token .matchList part list)
      readParts list rest
    else do
      let term ← read part
      let terms ← readParts list rest
      pure (term :: terms)
termination_by (Text.totalLength parts, parts.length + 1)
decreasing_by
  all_goals
    simp only [Text.totalLength, List.length_cons, Prod.lex_def]
    omega

end

/-- A match list, from its text with or without braces. -/
def readList (s : Text) : Noted (List MatchTerm) := readParts s (Text.parts (Text.stripBraces s))

end MatchTerm

end NameServerConf
