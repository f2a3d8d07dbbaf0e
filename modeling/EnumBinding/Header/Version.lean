import EnumBinding.Text.Blank
import EnumBinding.Text.Match

/-!
# The version expression

A version header defines its packed version on one line, `#define NAME (expression)`. The line must begin
with `#define` and end with the closing parenthesis; what stands between the first opening parenthesis
and that last one is the expression, whether or not the two belong together. The blanks around the name
may run over line ends. No name is too long to be searched for; an engine's limit on the size of a pattern is
left aside.
-/

namespace EnumBinding.Header.Version

/-- The text of a line up to its last parenthesis: the line must end with `)` and hold something before
it. -/
def enclosed? (line : List Char) : Option (List Char) :=
  if line.getLast? = some ')' ∧ 2 ≤ line.length then some line.dropLast else none

def argument? : List Char → Option (List Char)
  | [] => none
  | c :: cs =>
    if Text.isBlank c then
      match cs.dropWhile Text.isBlank with
      | '(' :: rest => enclosed? (rest.takeWhile (· != '\n'))
      | _ => none
    else
      none

def definition? (name : List Char) (cs : List Char) : Option (List Char) :=
  match Text.after? "#define".toList cs with
  | some (c :: rest) =>
    if Text.isBlank c then
      Text.afterRun? Text.isBlank (fun tail => (Text.after? name tail).bind argument?) rest
    else
      none
  | _ => none

def find? (name : List Char) (lineStart : Bool) : List Char → Option (List Char)
  | [] => none
  | c :: cs =>
    match if lineStart then definition? name (c :: cs) else none with
    | some expression => some expression
    | none => find? name (c == '\n') cs

def mergePairs : List Char → List Char
  | ' ' :: ' ' :: cs => ' ' :: mergePairs cs
  | c :: cs => c :: mergePairs cs
  | [] => []

def hasPair : List Char → Bool
  | ' ' :: ' ' :: _ => true
  | _ :: cs => hasPair cs
  | [] => false

theorem length_mergePairs_le (cs : List Char) : (mergePairs cs).length ≤ cs.length := by
  fun_induction mergePairs cs <;> grind

theorem length_mergePairs_lt {cs : List Char} (h : hasPair cs = true) :
    (mergePairs cs).length < cs.length := by
  fun_induction mergePairs cs with
  | case1 cs ih =>
    have := length_mergePairs_le cs
    simp only [List.length_cons]
    omega
  | case2 c cs hne ih =>
    rw [hasPair] at h
    · simpa using ih h
    · exact hne
  | case3 => simp [hasPair] at h

def collapse (cs : List Char) : List Char :=
  if hasPair cs = true then collapse (mergePairs cs) else cs
termination_by cs.length
decreasing_by exact length_mergePairs_lt ‹_›

def zeroPatch : List Char := " | 0".toList

/-- Trims an expression, collapses its spaces and drops one zero patch level from its end. -/
def normalize (expression : List Char) : List Char :=
  let cs := collapse (Text.trim expression)
  if zeroPatch.isSuffixOf cs then cs.take (cs.length - zeroPatch.length) else cs

end EnumBinding.Header.Version

namespace EnumBinding.Header

def versionMacro : String := "LIBHEIF_NUMERIC_VERSION"

def version? (header : String) (name : String) : Option String :=
  (Version.find? name.toList true header.toList).map fun expression =>
    String.ofList (Version.normalize expression)

end EnumBinding.Header
