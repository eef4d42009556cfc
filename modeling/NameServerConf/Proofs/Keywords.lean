import Mathlib.Data.List.Basic
import NameServerConf.Config.Apply

/-!
# Keywords of statements

**Bytes that stand for themselves.**  Outside quotation marks only four bytes can begin something
longer: the quotation mark, the number sign, the slash and the opening brace.  Any other byte is an
item of its own, whatever follows it (`items_cons_of_single`).

**Keywords.**  So a word of plain bytes at the beginning of a statement is its keyword as soon as a
blank or a semicolon follows (`keyword_read_of_word`).  The texts that a configuration puts into a
statement come later on the line and cannot change the keyword, whatever they are:
`keyword?_of_mem_nodes` says that every statement of a configuration is found under the keyword that
it was made for.
-/

namespace NameServerConf

/-! ## Bytes that stand for themselves -/

namespace Byte

/-- A byte that is an item of its own, whatever follows. -/
def isSingle (b : UInt8) : Bool := b ≠ quote && b ≠ hash && b ≠ slash && b ≠ openBrace

/-- A byte without any meaning of its own. -/
def isPlain (b : UInt8) : Bool :=
  isSingle b && !isBlank b && b ≠ semicolon && b ≠ closeBrace

lemma isSingle_of_isPlain {b : UInt8} (h : isPlain b) : isSingle b := by
  simp only [isPlain, Bool.and_eq_true] at h
  exact h.1.1.1

lemma isSingle_of_isBlank {b : UInt8} (h : isBlank b) : isSingle b := by
  simp only [isSingle, Bool.and_eq_true, decide_eq_true_eq]
  refine ⟨⟨⟨?_, ?_⟩, ?_⟩, ?_⟩ <;> rintro rfl <;> revert h <;> decide

end Byte

namespace Text

lemma splitComment?_eq_none {d : Dialect} {b : UInt8} (h : Byte.isSingle b) (r : Text) :
    Dialect.splitComment? d (b :: r) = none := by
  simp only [Byte.isSingle, Bool.and_eq_true, decide_eq_true_eq] at h
  cases d with
  | value => rfl
  | file =>
      simp only [Dialect.splitComment?, splitComment?]
      rw [if_neg h.1.1.2, if_neg h.1.2]

/-- A byte that begins neither a string nor a comment is a lexeme. -/
lemma lexemes_cons_of_none {d : Dialect} {b : UInt8} {r : Text} (hquote : b ≠ Byte.quote)
    (h : Dialect.splitComment? d (b :: r) = none) : lexemes d (b :: r) = .byte b :: lexemes d r := by
  rw [lexemes, if_neg hquote]
  split
  next c rest hc => rw [h] at hc; cases hc
  next => rfl

/-- A comment is a lexeme. -/
lemma lexemes_cons_of_some {d : Dialect} {b : UInt8} {r c rest : Text} (hquote : b ≠ Byte.quote)
    (h : Dialect.splitComment? d (b :: r) = some (c, rest)) :
    lexemes d (b :: r) = .comment c :: lexemes d rest := by
  rw [lexemes, if_neg hquote]
  split
  next c' rest' hc =>
    obtain ⟨rfl, rfl⟩ := Prod.mk.inj (Option.some.inj (hc.symm.trans h))
    rfl
  next hc => rw [h] at hc; cases hc

lemma lexemes_cons_of_single {d : Dialect} {b : UInt8} (h : Byte.isSingle b) (r : Text) :
    lexemes d (b :: r) = .byte b :: lexemes d r := by
  have hquote : b ≠ Byte.quote := by
    simp only [Byte.isSingle, Bool.and_eq_true, decide_eq_true_eq] at h
    exact h.1.1.1
  exact lexemes_cons_of_none hquote (splitComment?_eq_none h r)

lemma nest_cons_of_ne {i : Item} (h : i ≠ .byte Byte.openBrace) (is : List Item) :
    nest (i :: is) = i :: nest is := by
  rw [nest, if_neg h]

/-- A byte that cannot begin anything longer is an item of its own. -/
lemma items_cons_of_single {d : Dialect} {b : UInt8} (h : Byte.isSingle b) (r : Text) :
    items d (b :: r) = .byte b :: items d r := by
  have hb : b ≠ Byte.openBrace := by
    simp only [Byte.isSingle, Bool.and_eq_true, decide_eq_true_eq] at h
    exact h.2
  rw [items, lexemes_cons_of_single h, nest_cons_of_ne (fun e => hb (Item.byte.inj e)), items]

lemma items_append_of_single {d : Dialect} {w : Text} (h : ∀ b ∈ w, Byte.isSingle b) (r : Text) :
    items d (w ++ r) = w.map .byte ++ items d r := by
  induction w with
  | nil => rfl
  | cons b w ih =>
      rw [List.cons_append, items_cons_of_single (h b (List.mem_cons_self ..)),
        ih fun c hc => h c (List.mem_cons_of_mem _ hc), List.map_cons, List.cons_append]

/-- The text of bytes that stand for themselves. -/
lemma ofItems_map_byte (w : Text) : ofItems (w.map .byte) = w := by
  induction w with
  | nil => rfl
  | cons b w ih => rw [List.map_cons, ofItems_cons, ih]; rfl

end Text

/-! ## Keywords -/

namespace Statement

/-- A byte that ends an unquoted keyword: a blank or a semicolon. -/
def endsKeyword (b : UInt8) : Bool := Byte.isBlank b || b = Byte.semicolon

lemma isKeywordItem_of_plain {b : UInt8} (h : Byte.isPlain b) : isKeywordItem (.byte b) := by
  simp only [Byte.isPlain, Bool.and_eq_true, Bool.not_eq_true', decide_eq_true_eq] at h
  simp [isKeywordItem, Item.isByte, h.1.1.2, h.1.2]

/-- A word of plain bytes is the keyword of a text in which a blank or a semicolon follows it. -/
lemma splitKeyword_of_word {w : Text} (hw : ∀ b ∈ w, Byte.isPlain b) {b : UInt8}
    (hb : endsKeyword b) (r : Text) : splitKeyword (w ++ b :: r) = (w, b :: r) := by
  have hsingle : Byte.isSingle b := by
    simp only [endsKeyword, Bool.or_eq_true, decide_eq_true_eq] at hb
    rcases hb with hb | rfl
    · exact Byte.isSingle_of_isBlank hb
    · rfl
  have hstop : isKeywordItem (.byte b) = false := by
    simp only [endsKeyword, Bool.or_eq_true, decide_eq_true_eq] at hb
    simp only [isKeywordItem, Item.isByte, Bool.and_eq_false_iff, Bool.not_eq_false',
      decide_eq_false_iff_not, not_not]
    exact hb
  have his : Text.items .file (w ++ b :: r) = w.map .byte ++ .byte b :: Text.items .file r := by
    rw [Text.items_append_of_single fun c hc => Byte.isSingle_of_isPlain (hw c hc),
      Text.items_cons_of_single hsingle]
  have hall : ∀ i ∈ w.map Item.byte, isKeywordItem i = true := by
    intro i hi
    obtain ⟨c, hc, rfl⟩ := List.mem_map.mp hi
    exact isKeywordItem_of_plain (hw c hc)
  have htake : (w.map Item.byte ++ .byte b :: Text.items .file r).takeWhile isKeywordItem = _ :=
    List.takeWhile_append_of_pos hall
  have hdrop : (w.map Item.byte ++ .byte b :: Text.items .file r).dropWhile isKeywordItem = _ :=
    List.dropWhile_append_of_pos hall
  rw [splitKeyword, his]
  split
  next q rest hq =>
    -- the first item is a byte, be it of the word or the one that ends it
    cases w with
    | nil => simp at hq
    | cons c w => simp at hq
  next =>
    rw [htake, hdrop, List.takeWhile_cons, List.dropWhile_cons, hstop]
    simp only [Bool.false_eq_true, if_false, List.append_nil, Text.ofItems_map_byte,
      Text.ofItems_cons, Item.text, Text.ofItems_items, List.cons_append, List.nil_append]

/-- The keyword of a statement that begins with a word of plain bytes. -/
lemma keyword_read_of_word {c : UInt8} {w : Text} (hw : ∀ b ∈ c :: w, Byte.isPlain b) {b : UInt8}
    (hb : endsKeyword b) (r : Text) : (read (c :: w ++ b :: r)).keyword = c :: w := by
  have hc : Byte.isBlank c = false := by
    have h := hw c (List.mem_cons_self ..)
    simp only [Byte.isPlain, Bool.and_eq_true, Bool.not_eq_true'] at h
    exact h.1.1.2
  have htrim : Text.trimLeft (c :: w ++ b :: r) = c :: w ++ b :: r := by
    rw [Text.trimLeft, List.cons_append, List.dropWhile_cons, hc]
    simp only [Bool.false_eq_true, if_false]
  rw [read, htrim, splitKeyword_of_word hw hb]
  rfl

end Statement

/-! ## The statements of a configuration -/

namespace Statement

/-- The word of a keyword is made of plain bytes. -/
lemma plain_of_mem_word (k : Keyword) : ∀ b ∈ k.word, Byte.isPlain b := by
  have hall : k.word.all Byte.isPlain = true := by cases k <;> decide
  exact List.all_eq_true.mp hall

/-- A text that begins with the word of a keyword and then has a blank or a semicolon is read as a
    statement with this keyword. -/
lemma keyword_read_word (k : Keyword) {b : UInt8} (hb : endsKeyword b) (r : Text) :
    (read (k.word ++ b :: r)).keyword = k.word := by
  have hw := plain_of_mem_word k
  cases h : k.word with
  | nil => cases k <;> cases h
  | cons c w =>
      rw [h] at hw
      exact keyword_read_of_word hw hb r

end Statement

namespace Node

/-- The keyword of a node, if it is a statement with one that the library knows. -/
def keyword? (n : Node) : Option Keyword := n.statement?.bind fun s => Keyword.ofWord? s.keyword

end Node

lemma Keyword.ofWord?_eq_some {w : Text} {k : Keyword} : ofWord? w = some k ↔ w = k.word := by
  constructor
  · intro h
    have := List.find?_some h
    simpa using (of_decide_eq_true this).symm
  · rintro rfl
    cases k <;> rfl

namespace Node

lemma hasKeyword_word_iff {n : Node} {k : Keyword} :
    n.hasKeyword k.word ↔ n.keyword? = some k := by
  cases h : n.statement? with
  | none => simp [hasKeyword, keyword?, h]
  | some s => simp [hasKeyword, keyword?, h, Keyword.ofWord?_eq_some]

lemma keyword?_raw (t : Text) : (Node.raw t).keyword? = none := rfl

end Node

/-! ### Built statements -/

namespace Text

lemma phrase_cons_cons (s t : Text) (r : List Text) :
    phrase (s :: t :: r) = s ++ Byte.space :: phrase (t :: r) := by
  simp [phrase, join]

/-- A header with a name begins with its word and a blank. -/
lemma namedHeader_eq (word name cls : Text) :
    ∃ r, namedHeader word name cls = word ++ Byte.space :: r := by
  rw [namedHeader, List.cons_append, List.cons_append, phrase_cons_cons]
  exact ⟨_, rfl⟩

end Text

namespace Node

lemma keyword?_line {k : Keyword} (r : Text) :
    (Node.line (k.word ++ Byte.space :: r)).keyword? = some k := by
  simp only [keyword?, statement?, Option.bind_some, Keyword.ofWord?_eq_some]
  rw [List.append_assoc, List.cons_append, Statement.keyword_read_word k rfl]

lemma keyword?_block {k : Keyword} (r : Text) (body : List Node) :
    (Node.block (k.word ++ Byte.space :: r) body).keyword? = some k := by
  simp only [keyword?, statement?, Option.bind_some, Keyword.ofWord?_eq_some, Statement.ofBlock]
  rw [List.append_assoc, List.cons_append, Statement.keyword_read_word k rfl]

/-- A block whose header is nothing but its keyword. -/
lemma keyword?_block_word (k : Keyword) (body : List Node) :
    (Node.block k.word body).keyword? = some k := by
  simp only [keyword?, statement?, Option.bind_some, Keyword.ofWord?_eq_some, Statement.ofBlock]
  exact Statement.keyword_read_word k rfl []

lemma keyword?_namedBlock (k : Keyword) (name cls : Text) (body : List Node) :
    (Node.block (Text.namedHeader k.word name cls) body).keyword? = some k := by
  obtain ⟨r, hr⟩ := Text.namedHeader_eq k.word name cls
  rw [hr, keyword?_block]

end Node

namespace Config

/-- Every statement of a configuration is found under the keyword that it was made for. -/
theorem keyword?_of_mem_nodes (c : Config) (k : Keyword) {n : Node} (h : n ∈ c.nodes k) :
    n.keyword? = some k := by
  cases k with
  | «include» =>
      obtain ⟨i, -, rfl⟩ := List.mem_map.mp h
      exact Node.keyword?_line (k := .include) _
  | acl =>
      obtain ⟨a, -, rfl⟩ := List.mem_map.mp h
      obtain ⟨r, hr⟩ := Text.namedHeader_eq Keyword.acl.word a.name []
      rw [Acl.node, Text.phrase_cons_cons, show ("acl" : Text) = Keyword.acl.word from rfl, hr,
        List.append_assoc, List.cons_append]
      exact Node.keyword?_line _
  | key =>
      obtain ⟨e, -, rfl⟩ := List.mem_map.mp h
      exact Node.keyword?_namedBlock .key _ _ _
  | keyStore =>
      obtain ⟨e, -, rfl⟩ := List.mem_map.mp h
      exact Node.keyword?_namedBlock .keyStore _ _ _
  | remoteServers =>
      obtain ⟨g, -, rfl⟩ := List.mem_map.mp h
      obtain ⟨r, hr⟩ := Text.namedHeader_eq Keyword.remoteServers.word g.name []
      have hhead : ∃ r', Text.phrase (Text.namedHeader "remote-servers" g.name [] ::
          Text.numberClause "port" g.port) = Keyword.remoteServers.word ++ Byte.space :: r' := by
        rw [show ("remote-servers" : Text) = Keyword.remoteServers.word from rfl, hr]
        cases g.port with
        | none => exact ⟨r, rfl⟩
        | some n =>
            rw [Text.numberClause, Text.phrase_cons_cons, List.append_assoc, List.cons_append]
            exact ⟨_, rfl⟩
      obtain ⟨r', hr'⟩ := hhead
      rw [ServerGroup.node, hr']
      exact Node.keyword?_block _ _
  | tls =>
      obtain ⟨e, -, rfl⟩ := List.mem_map.mp h
      exact Node.keyword?_namedBlock .tls _ _ _
  | http =>
      obtain ⟨e, -, rfl⟩ := List.mem_map.mp h
      exact Node.keyword?_namedBlock .http _ _ _
  | controls =>
      obtain ⟨e, -, rfl⟩ := List.mem_map.mp h
      exact Node.keyword?_block_word .controls _
  | logging =>
      obtain ⟨e, -, rfl⟩ := List.mem_map.mp h
      exact Node.keyword?_block_word .logging _
  | options =>
      obtain ⟨e, -, rfl⟩ := List.mem_map.mp h
      exact Node.keyword?_block_word .options _
  | trustAnchors =>
      obtain ⟨e, -, rfl⟩ := List.mem_map.mp h
      exact Node.keyword?_block_word .trustAnchors _
  | view =>
      obtain ⟨e, -, rfl⟩ := List.mem_map.mp h
      exact Node.keyword?_namedBlock .view _ _ _
  | zone =>
      obtain ⟨e, -, rfl⟩ := List.mem_map.mp h
      exact Node.keyword?_namedBlock .zone _ _ _

end Config

end NameServerConf
