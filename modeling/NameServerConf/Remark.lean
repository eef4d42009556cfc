import NameServerConf.Text.Number
import NameServerConf.Urgency

/-!
# Remarks

Reading a configuration never fails; what could not be understood is left out, and a **remark**
says so.  A remark is kept as what happened.  How urgent that is and how it is worded is
decided here, in `Remark.urgency` and `Remark.message`.

`Noted α` is a value together with the remarks that its making gave rise to, in order.
-/

namespace NameServerConf

/-- Which list of words a token was found in. -/
inductive Wording
  | matchList
  | listen
  | forwarders
  | forwarder
  | remoteServer
  | inetControl
  | unixControl
deriving DecidableEq, Repr

/-- The block that a statement was found in: its kind, and its name if it has one. -/
structure Place where
  kind : Text
  name : Text
deriving DecidableEq, Repr

/-- Something that is told to the user. -/
inductive Remark
  /-- A token of a value was left out. -/
  | token (wording : Wording) (token value : Text)
  /-- A trust anchor without a record was left out. -/
  | anchorWithoutRecord (anchor : Text)
  /-- A trust anchor whose kind cannot be told was left out. -/
  | anchorOfNoKind (anchor : Text)
  /-- A statement, or a part of one, was left out. -/
  | statement (place : Place) (what : Text)
  /-- A log channel has a destination already. -/
  | secondDestination (channel keyword : Text)
  /-- How many statements were left out. -/
  | statementsLeftOut (count : Nat)
  /-- Some statements gave way to new ones. -/
  | replaced (old : Nat) (keyword : Text) (new : Nat)
  /-- The configuration was written to a file. -/
  | saved (path : Text)
deriving DecidableEq, Repr

/-- A value, and what was remarked on the way to it. -/
structure Noted (α : Type) where
  value : α
  remarks : List Remark
deriving Repr

namespace Noted

variable {α β : Type}

/-- First `m`, then `f` on its value; the remarks of both, in that order. -/
protected def bind (m : Noted α) (f : α → Noted β) : Noted β :=
  ⟨(f m.value).value, m.remarks ++ (f m.value).remarks⟩

instance : Monad Noted where
  pure a := ⟨a, []⟩
  bind := Noted.bind

/-- Makes a remark. -/
def remark (r : Remark) : Noted Unit := ⟨(), [r]⟩

@[simp] theorem value_pure (a : α) : (pure a : Noted α).value = a := rfl

@[simp] theorem remarks_pure (a : α) : (pure a : Noted α).remarks = [] := rfl

@[simp] theorem value_bind (m : Noted α) (f : α → Noted β) :
    (m >>= f).value = (f m.value).value := rfl

@[simp] theorem remarks_bind (m : Noted α) (f : α → Noted β) :
    (m >>= f).remarks = m.remarks ++ (f m.value).remarks := rfl

instance : LawfulMonad Noted :=
  LawfulMonad.mk' Noted
    (fun m => by
      show (⟨m.value, m.remarks ++ []⟩ : Noted _) = m
      rw [List.append_nil])
    (fun _ _ => rfl)
    (fun m f g => by
      show (⟨(g (f m.value).value).value, (m.remarks ++ (f m.value).remarks) ++ _⟩ : Noted _) =
        ⟨(g (f m.value).value).value, m.remarks ++ (_ ++ _)⟩
      rw [List.append_assoc]
      rfl)

end Noted

/-! ## Wording -/

namespace Wording

/-- The name of a list of words. -/
def name : Wording → Text
  | .matchList => "match list"
  | .listen => "listen"
  | .forwarders => "forwarders"
  | .forwarder => "forwarder"
  | .remoteServer => "remote server"
  | .inetControl => "inet control"
  | .unixControl => "unix control"

end Wording

namespace Place

/-- A block that there is only one of. -/
def only (kind : Text) : Place := ⟨kind, []⟩

/-- How a place is called. -/
def text (p : Place) : Text :=
  if p.name = [] then p.kind else p.kind ++ " '" ++ p.name ++ "'"

end Place

namespace Remark

/-- How urgent a remark is. -/
def urgency : Remark → Urgency
  | .token _ _ _ => .debug
  | .anchorWithoutRecord _ => .debug
  | .anchorOfNoKind _ => .debug
  | .statement _ _ => .warning
  | .secondDestination _ _ => .warning
  | .statementsLeftOut _ => .notice
  | .replaced _ _ _ => .debug
  | .saved _ => .info

/-- What a remark says. -/
def message : Remark → Text
  | .token wording word value =>
    "Dropping unrecognized " ++ wording.name ++ " token '" ++ word ++ "' in '" ++ value ++ "'"
  | .anchorWithoutRecord anchor =>
    "Dropping trust anchor without record data: '" ++ anchor ++ "'"
  | .anchorOfNoKind anchor =>
    "Dropping trust anchor that is neither DS nor DNSKEY: '" ++ anchor ++ "'"
  | .statement place what =>
    "Dropping unrecognized statement '" ++ what ++ "' in " ++ place.text
  | .secondDestination channel keyword =>
    "Channel '" ++ channel ++ "' has more than one destination, '" ++ keyword ++
      "' replaces the previous one"
  | .statementsLeftOut count =>
    "Decoding dropped " ++ Text.ofNat count ++ " unrecognized fragment(s)"
  | .replaced old keyword new =>
    "Replaced " ++ Text.ofNat old ++ " '" ++ keyword ++ "' statement(s) by " ++ Text.ofNat new
  | .saved path => "Saved configuration to '" ++ path ++ "'"

/-- The line for the list of what was left out, if the remark tells of a statement that was. -/
def leftOut? : Remark → Option Text
  | .statement place what => some (place.text ++ ": " ++ what)
  | _ => none

/-- All that some remarks say was left out. -/
def leftOut (rs : List Remark) : List Text := rs.filterMap leftOut?

/-- The remarks that pass a threshold, each on a line of its own. -/
def log (threshold : Urgency) (rs : List Remark) : Text :=
  (rs.filter (·.urgency.passes threshold)).flatMap (fun r => r.message ++ [Byte.newline])

end Remark

end NameServerConf
