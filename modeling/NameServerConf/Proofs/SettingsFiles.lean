import Mathlib.Data.List.TakeWhile
import NameServerConf.Proofs.Assignments

/-!
# Settings files

A settings file holds one setting a line.  This module says how such a file is meant to be read, and
which files are read like that.

**The reading.**  A line that ends in a backslash goes on in the next one, or ends with the file, and
a number sign that begins a line or follows a blank starts a comment (`documentedArguments`).

**Lines.**  A line that still goes on when the file ends is not read (`joinLines_eq`).

**Comments.**  Only the first number sign of a line can start a comment, so a comment behind another
number sign is taken for a part of the value (`trim_dropComment_eq_iff`).

**Files.**  What a file does is what is meant, unless it has one of the two (`acceptFile_eq_documented`).
-/

namespace NameServerConf

namespace Settings

/-! ## The reading -/

/-- Whether a line goes on in the next one. -/
def goesOn (line : Text) : Bool := line.trimRight.getLast? = some Byte.backslash

/-- Puts a text before the first of some lines. -/
def before (front : Text) : List Text → List Text
  | [] => [front]
  | line :: lines => (front ++ line) :: lines

/-- The lines of a file, each with those it goes on in.  The end of the file ends the last. -/
def wholeLines : List Text → List Text
  | [] => []
  | line :: lines =>
    if goesOn line then before line.trimRight.dropLast (wholeLines lines)
    else line.trimRight :: wholeLines lines

/-- A line as far as its comment.  At the beginning, `free` says whether one may start there. -/
def beforeComment (free : Bool) : Text → Text
  | [] => []
  | b :: rest => if free && b = Byte.hash then [] else b :: beforeComment (Byte.isBlank b) rest

/-- The argument on a line. -/
def lineArgument (line : Text) : Text :=
  [Byte.hyphen, Byte.hyphen] ++ (beforeComment true line).trim

/-- The arguments in a settings file, as it is meant to be read. -/
def documentedArguments (content : Text) : List Text :=
  (wholeLines (splitLines content)).map lineArgument

/-- The arguments that are not empty lines. -/
def requests (args : List Text) : List Text := args.filter (· ≠ [Byte.hyphen, Byte.hyphen])

/-- Empty lines set nothing. -/
lemma acceptAll_requests (lax : Bool) (args : List Text) (s : Settings) :
    acceptAll lax (requests args) s = acceptAll lax args s := by
  induction args generalizing s with
  | nil => rfl
  | cons arg args ih =>
      rw [requests, List.filter_cons]
      split
      next =>
        rw [acceptAll, acceptAll]
        cases s.accept lax (.ofText arg) with
        | ok next => exact ih next
        | error e => rfl
      next hempty =>
        obtain rfl : arg = [Byte.hyphen, Byte.hyphen] := by simpa using hempty
        exact ih s

/-! ## Lines -/

lemma before_before (front back : Text) (lines : List Text) :
    before front (before back lines) = before (front ++ back) lines := by
  cases lines <;> simp [before]

lemma before_nil {lines : List Text} (h : lines ≠ []) : before [] lines = lines := by
  obtain ⟨line, lines, rfl⟩ := List.exists_cons_of_ne_nil h
  rfl

lemma wholeLines_ne_nil {lines : List Text} (h : lines ≠ []) : wholeLines lines ≠ [] := by
  obtain ⟨line, lines, rfl⟩ := List.exists_cons_of_ne_nil h
  rw [wholeLines]
  split
  · cases wholeLines lines <;> exact List.cons_ne_nil _ _
  · exact List.cons_ne_nil _ _

/-- **What is read of the lines** are the whole lines, without one that still goes on when the file ends.
    Before there was a line, what is pending goes on. -/
lemma joinLines_eq (pending : Text) (lines : List Text) :
    joinLines pending lines =
      if lines.getLast?.all goesOn then (before pending (wholeLines lines)).dropLast
      else before pending (wholeLines lines) := by
  induction lines generalizing pending with
  | nil => rfl
  | cons line lines ih =>
      rw [joinLines, wholeLines]
      by_cases hline : goesOn line = true
      · have hlast : (line :: lines).getLast?.all goesOn = lines.getLast?.all goesOn := by
          rw [List.getLast?_cons]
          cases lines.getLast? <;> simp [hline]
        rw [if_pos (of_decide_eq_true hline), if_pos hline, ih, hlast, before_before]
      · rw [if_neg (fun h => hline (decide_eq_true h)), if_neg hline, ih, before]
        by_cases hnil : lines = []
        · subst hnil
          have hlast : ¬ ([line].getLast?.all goesOn) = true := hline
          rw [if_neg hlast]
          rfl
        · have hlast : (line :: lines).getLast? = lines.getLast? :=
            List.getLast?_cons_of_ne_nil hnil
          rw [hlast, before_nil (wholeLines_ne_nil hnil)]
          split
          · rw [List.dropLast_cons_of_ne_nil (wholeLines_ne_nil hnil)]
          · rfl

/-- The line that still goes on when the file ends. -/
def unread (lines : List Text) : List Text :=
  if lines.getLast?.any goesOn then (wholeLines lines).getLast?.toList else []

lemma wholeLines_eq (lines : List Text) : wholeLines lines = joinLines [] lines ++ unread lines := by
  by_cases hnil : lines = []
  · subst hnil
    rfl
  · have hall : lines.getLast?.all goesOn = lines.getLast?.any goesOn := by
      rw [List.getLast?_eq_some_getLast hnil]
      rfl
    have hwhole := wholeLines_ne_nil hnil
    rw [joinLines_eq, before_nil hwhole, hall, unread]
    split
    · rw [List.getLast?_eq_some_getLast hwhole]
      exact (List.dropLast_append_getLast hwhole).symm
    · rw [List.append_nil]

/-! ## Comments -/

/-- The comment, if the line has one, starts at the first number sign. -/
def CommentFirst (line : Text) : Prop :=
  beforeComment true line = line ∨ beforeComment true line = line.takeWhile (· ≠ Byte.hash)

instance (line : Text) : Decidable (CommentFirst line) :=
  inferInstanceAs (Decidable (_ ∨ _))

lemma beforeComment_eq_self_or (free : Bool) (s : Text) :
    beforeComment free s = s ∨ ∃ rest, s = beforeComment free s ++ Byte.hash :: rest := by
  induction s generalizing free with
  | nil => exact .inl rfl
  | cons b s ih =>
      rw [beforeComment]
      split
      next h =>
        rw [Bool.and_eq_true, decide_eq_true_eq] at h
        exact .inr ⟨s, by rw [h.2, List.nil_append]⟩
      next =>
        obtain heq | ⟨rest, heq⟩ := ih (Byte.isBlank b)
        · exact .inl (by rw [heq])
        · exact .inr ⟨rest, by rw [List.cons_append, ← heq]⟩

lemma beforeComment_eq_self (free : Bool) {s : Text} (h : Byte.hash ∉ s) :
    beforeComment free s = s := by
  obtain heq | ⟨rest, heq⟩ := beforeComment_eq_self_or free s
  · exact heq
  · exact absurd (heq ▸ by simp) h

/-- What the first number sign does is up to the byte before it. -/
lemma beforeComment_append (free : Bool) {front : Text} (h : Byte.hash ∉ front) (rest : Text) :
    beforeComment free (front ++ Byte.hash :: rest) =
      if front.getLast?.elim free Byte.isBlank then front
      else front ++ Byte.hash :: beforeComment false rest := by
  induction front generalizing free with
  | nil => cases free <;> rfl
  | cons b front ih =>
      rw [List.mem_cons, not_or] at h
      have hb : ¬ (free && b = Byte.hash) = true := by
        rw [Bool.and_eq_true, decide_eq_true_eq]
        exact fun hb => h.1 hb.2.symm
      have hlast : (b :: front).getLast?.elim free Byte.isBlank =
          front.getLast?.elim (Byte.isBlank b) Byte.isBlank := by
        rw [List.getLast?_cons]
        cases front.getLast? <;> rfl
      rw [List.cons_append, beforeComment, if_neg hb, ih _ h.2, hlast]
      split <;> rfl

section FirstSign

variable {front : Text} (h : Byte.hash ∉ front) (rest : Text)
include h

lemma takeWhile_append_hash :
    (front ++ Byte.hash :: rest).takeWhile (· ≠ Byte.hash) = front := by
  rw [List.takeWhile_append_of_pos fun b hb => decide_eq_true (ne_of_mem_of_not_mem hb h)]
  simp

lemma dropComment_append :
    dropComment (front ++ Byte.hash :: rest) =
      if front.getLast?.elim true Byte.isBlank then front else front ++ Byte.hash :: rest := by
  have hdrop : (front ++ Byte.hash :: rest).dropWhile (· ≠ Byte.hash) = Byte.hash :: rest := by
    rw [List.dropWhile_append_of_pos fun b hb => decide_eq_true (ne_of_mem_of_not_mem hb h)]
    simp
  rw [dropComment, hdrop, takeWhile_append_hash h]
  cases hlast : front.getLast? with
  | none => exact (List.getLast?_eq_none_iff.mp hlast).symm
  | some b => rfl

end FirstSign

/-- Either both readings see the same comment, or the first number sign starts none and only one of
    them looks further. -/
lemma comment_cases (line : Text) :
    (dropComment line = beforeComment true line ∧ CommentFirst line) ∨
      ∃ front rest, line = front ++ Byte.hash :: rest ∧ Byte.hash ∉ front ∧ dropComment line = line ∧
        beforeComment true line = front ++ Byte.hash :: beforeComment false rest := by
  by_cases hmem : Byte.hash ∈ line
  · obtain ⟨front, rest, rfl, hfront⟩ := List.eq_append_cons_of_mem hmem
    rw [CommentFirst, dropComment_append hfront, beforeComment_append true hfront,
      takeWhile_append_hash hfront]
    cases front.getLast?.elim true Byte.isBlank with
    | true => exact .inl ⟨rfl, .inr rfl⟩
    | false => exact .inr ⟨front, rest, rfl, hfront, rfl, rfl⟩
  · have hdrop : line.dropWhile (· ≠ Byte.hash) = [] :=
      List.dropWhile_eq_nil_iff.mpr fun b hb => decide_eq_true (ne_of_mem_of_not_mem hb hmem)
    have hself := beforeComment_eq_self true hmem
    rw [dropComment, hdrop]
    exact .inl ⟨hself.symm, .inl hself⟩

/-- **Where a comment starts** is read as it is meant exactly if that is at the first number sign. -/
lemma trim_dropComment_eq_iff (line : Text) :
    (dropComment line).trim = (beforeComment true line).trim ↔ CommentFirst line := by
  obtain ⟨heq, hfirst⟩ | ⟨front, rest, rfl, hfront, hdrop, hbefore⟩ := comment_cases line
  · exact iff_of_true (by rw [heq]) hfirst
  · rw [CommentFirst, hdrop, hbefore, takeWhile_append_hash hfront]
    obtain hself | ⟨comment, hcomment⟩ := beforeComment_eq_self_or false rest
    · exact iff_of_true (by rw [hself]) (.inl (by rw [hself]))
    · -- the number sign of the comment is one more
      have hcount : (beforeComment false rest).count Byte.hash < rest.count Byte.hash := by
        conv_rhs => rw [hcomment, List.count_append, List.count_cons_self]
        omega
      refine iff_of_false (fun h => ?_) ?_
      · have hsigns := congrArg (List.count Byte.hash) h
        simp only [Text.trim, Text.count_strip (show Byte.isBlank Byte.hash = false from rfl),
          List.count_append, List.count_cons_self] at hsigns
        omega
      · rintro (h | h)
        · have hrest := (List.cons.inj (List.append_cancel_left h)).2
          rw [hrest] at hcount
          exact absurd hcount (lt_irrefl _)
        · simpa using congrArg List.length h

/-- A line has nothing on it in both readings or in none. -/
lemma trim_dropComment_eq_nil_iff (line : Text) :
    (dropComment line).trim = [] ↔ (beforeComment true line).trim = [] := by
  obtain ⟨heq, -⟩ | ⟨front, rest, hline, -, hdrop, hbefore⟩ := comment_cases line
  · rw [heq]
  · have hne : ∀ t : Text, Byte.hash ∈ t → t.trim ≠ [] := fun t ht hnil => by
      have hmem : Byte.hash ∈ t.trim := (Text.mem_strip_iff (by decide) t).mpr ht
      rw [hnil] at hmem
      cases hmem
    rw [hdrop, hbefore]
    exact iff_of_false (hne _ (by rw [hline]; simp)) (hne _ (by simp))

/-! ## Files -/

/-- A file that is read as it is meant: nothing is on a line that still goes on when the file ends, and
    all comments start at the first number sign of their line. -/
structure ReadAsMeant (content : Text) : Prop where
  ended : ∀ line ∈ unread (splitLines content), (beforeComment true line).trim = []
  comments : ∀ line ∈ wholeLines (splitLines content), CommentFirst line

/-- Whether something is on a line. -/
def isRequest (line : Text) : Bool := (beforeComment true line).trim ≠ []

lemma requests_documentedArguments (content : Text) :
    requests (documentedArguments content) =
      ((wholeLines (splitLines content)).filter isRequest).map lineArgument := by
  rw [requests, documentedArguments, List.filter_map]
  refine congrArg (List.map _) (List.filter_congr fun line _ => ?_)
  simp [isRequest, lineArgument]

lemma requests_argumentsOf (content : Text) :
    requests (argumentsOf content) =
      ((joinLines [] (splitLines content)).filter isRequest).map fun line =>
        [Byte.hyphen, Byte.hyphen] ++ (dropComment line).trim := by
  rw [requests, argumentsOf, List.filter_map]
  refine congrArg (List.map _) (List.filter_congr fun line _ => ?_)
  simp [isRequest, trim_dropComment_eq_nil_iff]

/-- A line with nothing on it has its comment, if any, at its beginning. -/
lemma commentFirst_of_isRequest {line : Text} (h : isRequest line = false) : CommentFirst line := by
  have hnil : (beforeComment true line).trim = [] := of_not_not (of_decide_eq_false h)
  rw [← trim_dropComment_eq_iff, hnil]
  exact (trim_dropComment_eq_nil_iff line).mpr hnil

/-- **What a file asks for** is what is meant exactly if no line is lost and no comment is kept. -/
lemma requests_argumentsOf_eq_iff (content : Text) :
    requests (argumentsOf content) = requests (documentedArguments content) ↔
      ReadAsMeant content := by
  have hwhole := wholeLines_eq (splitLines content)
  have hline : ∀ line : Text, [Byte.hyphen, Byte.hyphen] ++ (dropComment line).trim =
      lineArgument line ↔ CommentFirst line := fun line => by
    rw [lineArgument, List.append_cancel_left_eq, trim_dropComment_eq_iff]
  rw [requests_argumentsOf, requests_documentedArguments, hwhole, List.filter_append]
  constructor
  · intro h
    have hended : (unread (splitLines content)).filter isRequest = [] := by
      have hlength := congrArg List.length h
      simpa using hlength
    rw [hended, List.append_nil, List.map_inj_left] at h
    rw [List.filter_eq_nil_iff] at hended
    refine ⟨fun line hmem => by simpa [isRequest] using hended line hmem, fun line hmem => ?_⟩
    cases hreq : isRequest line with
    | false => exact commentFirst_of_isRequest hreq
    | true =>
        rw [hwhole, List.mem_append] at hmem
        have hread := hmem.resolve_right fun hunread => hended line hunread hreq
        exact (hline line).mp (h line (List.mem_filter.mpr ⟨hread, hreq⟩))
  · intro h
    have hended : (unread (splitLines content)).filter isRequest = [] :=
      List.filter_eq_nil_iff.mpr fun line hmem => by simp [isRequest, h.ended line hmem]
    rw [hended, List.append_nil, List.map_inj_left]
    intro line hmem
    have hread := (List.mem_filter.mp hmem).1
    exact (hline line).mpr (h.comments line (by rw [hwhole]; exact List.mem_append_left _ hread))

/-- **Reading a settings file.**  The arguments are those that are meant exactly if no line is lost and no
    comment is kept, and then the file does what is meant, whatever the settings were. -/
theorem acceptFile_eq_documented (content : Text) :
    (requests (argumentsOf content) = requests (documentedArguments content) ↔
        ReadAsMeant content) ∧
      (ReadAsMeant content → ∀ lax s,
        acceptFile lax content s = acceptAll lax (documentedArguments content) s) := by
  refine ⟨requests_argumentsOf_eq_iff content, fun h lax s => ?_⟩
  rw [acceptFile, ← acceptAll_requests, (requests_argumentsOf_eq_iff content).mpr h,
    acceptAll_requests]

/-- A file with a line that goes on twice, with number signs that start no comment, and with comments
    on lines of their own. -/
def continuedFile : Text :=
  "named-conf = /etc/\\\n  named.\\ \n\\\nconf # not /etc/a\n\n\t# #keep\nmode=a#b\n \\"

theorem acceptFile_eq_documented_continued :
    ReadAsMeant continuedFile ∧
      requests (documentedArguments continuedFile) =
        ["--named-conf = /etc/  named.conf", "--mode=a#b"] ∧
      ∀ lax s, acceptFile lax continuedFile s =
        acceptAll lax (documentedArguments continuedFile) s := by
  have h : ReadAsMeant continuedFile := ⟨by decide +kernel, by decide +kernel⟩
  exact ⟨h, by decide +kernel, (acceptFile_eq_documented continuedFile).2 h⟩

/-- The last line is lost if a backslash ends it, and a comment is kept in the value if that has a number
    sign in it. -/
theorem acceptFile_ne_documented :
    let s := empty.declare "a" [] .parameter []
    (acceptFile false "a=1\\" s).1.value "a" = .ok [] ∧
      (acceptAll false (documentedArguments "a=1\\") s).1.value "a" = .ok "1" ∧
      (acceptFile false "a=x#y # c" s).1.value "a" = .ok "x#y # c" ∧
      (acceptAll false (documentedArguments "a=x#y # c") s).1.value "a" = .ok "x#y" := by
  decide +kernel

end Settings

end NameServerConf
