/-!
# Lines

A source text is written as lines, each closed by a line end.
-/

namespace EnumBinding.Text

def unlines (lines : List String) : String := String.join (lines.map (· ++ "\n"))

def padTo (size : Nat) (line : String) : String :=
  line ++ String.ofList (List.replicate (size - line.length) ' ')

@[simp] theorem unlines_nil : unlines [] = "" := rfl

@[simp] theorem unlines_cons (line : String) (lines : List String) :
    unlines (line :: lines) = line ++ "\n" ++ unlines lines := by
  simp [unlines]

@[simp] theorem unlines_append (first second : List String) :
    unlines (first ++ second) = unlines first ++ unlines second := by
  simp [unlines]

end EnumBinding.Text
