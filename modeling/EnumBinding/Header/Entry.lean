import EnumBinding.Text.Blank
import EnumBinding.Text.Digit
import EnumBinding.Text.Match

/-!
# Member entries

A member begins a line, or follows an opening brace, with spaces and tabs; then come its name, which is
the family's prefix and an underscore and at least one more character, an equals sign and decimal digits.
It ends with the line or at a closing brace, or its line goes on with a `//` note; a comma may precede
either. Blanks around the equals sign and after `//` may run over line ends.

Each reader gives back a shorter text, so the scan for all members ends.
-/

namespace EnumBinding.Header

structure Entry where
  name : List Char
  /-- The text after `//` on the member's own line. -/
  note : Option (List Char)
  /-- Whether the member was read up to and with the end of its line. -/
  endsLine : Bool
deriving DecidableEq, Repr

namespace Entry

/-- Reads a note after its `//`. Only at the very end of the text may the note be one of the blanks that
precede it. -/
def note? : List Char → Option (List Char × List Char) :=
  Text.afterRun? Text.isBlank fun cs =>
    match cs.takeWhile (· != '\n') with
    -- At the end of the text or of a line there is no note: the run must give a character back.
    | [] => none
    | note => some (note, cs.dropWhile (· != '\n'))

def afterComma : List Char → List Char
  | ',' :: cs => cs.dropWhile Text.isIndent
  | cs => cs

def close? (name : List Char) : List Char → Option (Entry × List Char)
  | '\n' :: rest => some (⟨name, none, true⟩, rest)
  | '\x7d' :: rest => some (⟨name, none, false⟩, rest)
  | '/' :: '/' :: rest => (note? rest).map fun (note, rest) => (⟨name, some note, false⟩, rest)
  | _ => none

def ending? (name : List Char) (cs : List Char) : Option (Entry × List Char) :=
  close? name (afterComma (cs.dropWhile Text.isIndent))

def value? (name : List Char) (cs : List Char) : Option (Entry × List Char) :=
  -- No run is followed by a character of its own kind, so none has to give anything back.
  match cs.dropWhile Text.isBlank with
  | '=' :: rest =>
    match (rest.dropWhile Text.isBlank).takeWhile Text.isDecimal with
    | [] => none
    | _ => ending? name ((rest.dropWhile Text.isBlank).dropWhile Text.isDecimal)
  | _ => none

def isNameChar (c : Char) : Bool := c != '=' && !Text.isBlank c

def named? (stem : List Char) (cs : List Char) : Option (Entry × List Char) :=
  match Text.after? stem cs with
  | none => none
  | some rest =>
    match rest.takeWhile isNameChar with
    | [] => none
    | suffix => value? (stem ++ suffix) (rest.dropWhile isNameChar)

/-- Reads a member whose name begins with `stem` from the start of its line, or from behind a brace. -/
def indented? (stem : List Char) (cs : List Char) : Option (Entry × List Char) :=
  Text.afterRun? Text.isIndent (named? stem) cs

def read? (stem : List Char) (lineStart : Bool) (cs : List Char) : Option (Entry × List Char) :=
  match if lineStart then indented? stem cs else none with
  | some found => some found
  | none =>
    match cs with
    | '{' :: rest => indented? stem rest
    | _ => none

/-- Finds the next member: the text passed before it, the member and the text after it. -/
def next? (stem : List Char) (lineStart : Bool) (passed : List Char) :
    List Char → Option (List Char × Entry × List Char)
  | [] => none
  | c :: cs =>
    match read? stem lineStart (c :: cs) with
    | some (entry, rest) => some (passed.reverse, entry, rest)
    | none => next? stem (c == '\n') (c :: passed) cs

/-! ## What is read is consumed -/

theorem note?_suffix {cs rest note : List Char} (h : note? cs = some (note, rest)) : rest <:+ cs := by
  obtain ⟨run, tail, rfl, -, hnext⟩ := Text.afterRun?_eq_some h
  split at hnext
  · simp at hnext
  · simp only [Option.some.injEq, Prod.mk.injEq] at hnext
    rw [← hnext.2]
    exact (List.dropWhile_suffix _).trans (List.suffix_append _ _)

theorem afterComma_suffix (cs : List Char) : afterComma cs <:+ cs := by
  unfold afterComma
  split
  · exact (List.dropWhile_suffix _).trans (List.suffix_cons _ _)
  · exact List.suffix_refl _

theorem close?_suffix {name cs rest : List Char} {entry : Entry}
    (h : close? name cs = some (entry, rest)) : rest <:+ cs := by
  unfold close? at h
  split at h
  · cases h
    exact List.suffix_cons _ _
  · cases h
    exact List.suffix_cons _ _
  · obtain ⟨⟨note, tail⟩, hnote, heq⟩ := Option.map_eq_some_iff.1 h
    cases heq
    exact (note?_suffix hnote).trans ((List.suffix_cons _ _).trans (List.suffix_cons _ _))
  · cases h

theorem ending?_suffix {name cs rest : List Char} {entry : Entry}
    (h : ending? name cs = some (entry, rest)) : rest <:+ cs :=
  (close?_suffix h).trans ((afterComma_suffix _).trans (List.dropWhile_suffix _))

theorem value?_suffix {name cs rest : List Char} {entry : Entry}
    (h : value? name cs = some (entry, rest)) : rest <:+ cs := by
  unfold value? at h
  split at h
  · next tail heq =>
    split at h
    · simp at h
    · have := ending?_suffix h
      have step := (this.trans (List.dropWhile_suffix _)).trans
        ((List.dropWhile_suffix _).trans (List.suffix_cons '=' tail))
      rw [← heq] at step
      exact step.trans (List.dropWhile_suffix _)
  · simp at h

theorem named?_length {stem cs rest : List Char} {entry : Entry}
    (h : named? stem cs = some (entry, rest)) : rest.length < cs.length := by
  unfold named? at h
  split at h
  · simp at h
  · next tail hstem =>
    split at h
    · simp at h
    · next suffix hsuffix =>
      have hvalue := (value?_suffix h).length_le
      have hcut := congrArg List.length (List.takeWhile_append_dropWhile (p := isNameChar) (l := tail))
      have htaken : (tail.takeWhile isNameChar).length ≠ 0 := by
        intro hz
        exact hsuffix (List.length_eq_zero_iff.1 hz)
      rw [List.length_append] at hcut
      rw [Text.after?_eq_some_iff] at hstem
      rw [hstem, List.length_append]
      omega

theorem indented?_length {stem cs rest : List Char} {entry : Entry}
    (h : indented? stem cs = some (entry, rest)) : rest.length < cs.length := by
  obtain ⟨run, tail, rfl, -, hnamed⟩ := Text.afterRun?_eq_some h
  have := named?_length hnamed
  simp only [List.length_append]
  omega

theorem read?_length {stem cs rest : List Char} {lineStart : Bool} {entry : Entry}
    (h : read? stem lineStart cs = some (entry, rest)) : rest.length < cs.length := by
  unfold read? at h
  split at h
  · next found hfound =>
    cases lineStart with
    | false => simp at hfound
    | true => exact indented?_length (hfound.trans h)
  · split at h
    · exact Nat.lt_succ_of_lt (indented?_length h)
    · simp at h

theorem next?_length {stem passed cs gap rest : List Char} {lineStart : Bool} {entry : Entry}
    (h : next? stem lineStart passed cs = some (gap, entry, rest)) : rest.length < cs.length := by
  induction cs generalizing lineStart passed with
  | nil => simp [next?] at h
  | cons c cs ih =>
    unfold next? at h
    split at h
    · next found tail hread =>
      simp only [Option.some.injEq, Prod.mk.injEq] at h
      have := read?_length hread
      rw [h.2.2] at this
      exact this
    · exact Nat.lt_succ_of_lt (ih h)

/-! ## All members of a text -/

def all (stem : List Char) (lineStart : Bool) (cs : List Char) : List (List Char × Entry) :=
  match _found : next? stem lineStart [] cs with
  | none => []
  | some (gap, entry, rest) => (gap, entry) :: all stem entry.endsLine rest
termination_by cs.length
decreasing_by exact next?_length _found

end Entry

end EnumBinding.Header
