import NameServerConf.Clause

/-!
# Trust anchors

A trust anchor is a domain name and a record that its answers are checked against: either the digest
of a key or the key itself.  The first word of the record tells which, or else the record as a whole.
-/

namespace NameServerConf

/-- What the record of a trust anchor holds. -/
inductive AnchorKind
  /-- The digest of a key. -/
  | ds
  /-- A key. -/
  | dnskey
deriving DecidableEq, Inhabited, Repr

/-- A name and the record that vouches for it. -/
structure TrustAnchor where
  name : Text
  kind : AnchorKind
  /-- All that follows the name. -/
  record : Text
deriving DecidableEq, Inhabited, Repr

namespace TrustAnchor

/-- The kind that a text speaks of. -/
def kindIn? (s : Text) : Option AnchorKind :=
  if Text.occursIn "ds" s then some .ds else if Text.occursIn "key" s then some .dnskey else none

/-- The kind of a record with the given first word, which decides if it speaks of one. -/
def kindOf? (word record : Text) : Option AnchorKind := (kindIn? word.lower).or (kindIn? record)

/-- Splits a text behind the name that it begins with, in quotation marks or up to a blank. -/
def splitName : Text → Text × Text
  | [] => ([], [])
  | b :: r =>
    if b = Byte.quote then (b :: (Text.splitQuoted r).1, (Text.splitQuoted r).2)
    else ((b :: r).takeWhile (!Byte.isBlank ·), (b :: r).dropWhile (!Byte.isBlank ·))

/-- A trust anchor, from its text. -/
def read? (s : Text) : Noted (Option TrustAnchor) := do
  match s.trim with
  | [] => pure none
  | t =>
    let record := (splitName t).2.trim
    match record.words with
    | [] =>
      Noted.remark (.anchorWithoutRecord s)
      pure none
    | word :: _ =>
      match kindOf? word record with
      | some kind => pure (some ⟨(splitName t).1.unquote, kind, record⟩)
      | none =>
        Noted.remark (.anchorOfNoKind s)
        pure none

/-- A trust anchor, as it is written. -/
def text (a : TrustAnchor) : Text := Text.phrase [a.name.quote, a.record]

end TrustAnchor

end NameServerConf
