/-!
# Byte offsets

Offsets into a text count the bytes of its UTF-8 form. An offset is usable only if it falls between two
characters; cutting anywhere else, or past the end, gives `none`.
-/

namespace EnumBinding.Text

/-- The length in bytes. -/
def width (cs : List Char) : Nat := cs.foldr (fun c bytes => c.utf8Size + bytes) 0

@[simp] theorem width_nil : width [] = 0 := rfl

@[simp] theorem width_cons (c : Char) (cs : List Char) : width (c :: cs) = c.utf8Size + width cs := rfl

@[simp] theorem width_append (as bs : List Char) : width (as ++ bs) = width as + width bs := by
  induction as with
  | nil => simp
  | cons c as ih => simp [ih, Nat.add_assoc]

/-- Cuts a text after `bytes` bytes; `taken` holds the characters already passed, last one first. -/
def cut? (taken : List Char) (bytes : Nat) : List Char → Option (List Char × List Char)
  | [] => if bytes = 0 then some (taken.reverse, []) else none
  | c :: cs =>
    if bytes = 0 then some (taken.reverse, c :: cs)
    else if c.utf8Size ≤ bytes then cut? (c :: taken) (bytes - c.utf8Size) cs
    else none

def splitAt? (bytes : Nat) (cs : List Char) : Option (List Char × List Char) := cut? [] bytes cs

def slice? (first last : Nat) (cs : List Char) : Option (List Char) := do
  let (_, rest) ← splitAt? first cs
  let (text, _) ← splitAt? (last - first) rest
  return text

/-- Passes `bytes` bytes, and the rest of a character that they would cut. The first part is what was
passed, last character first. -/
def seek (passed : List Char) (bytes : Nat) : List Char → List Char × List Char
  | [] => (passed, [])
  | c :: cs => if bytes = 0 then (passed, c :: cs) else seek (c :: passed) (bytes - c.utf8Size) cs

theorem cut?_eq_some {bytes : Nat} {cs taken before rest : List Char}
    (h : cut? taken bytes cs = some (before, rest)) :
    ∃ mid, cs = mid ++ rest ∧ before = taken.reverse ++ mid ∧ width mid = bytes := by
  induction cs generalizing bytes taken with
  | nil =>
    simp only [cut?] at h
    split at h
    · next hz => simp_all
    · simp at h
  | cons c cs ih =>
    simp only [cut?] at h
    split at h
    · next hz =>
      simp only [Option.some.injEq, Prod.mk.injEq] at h
      exact ⟨[], by simp [← h.2], by simp [← h.1], by simp [hz]⟩
    · split at h
      · next hle =>
        obtain ⟨mid, hs, hb, hw⟩ := ih h
        exact ⟨c :: mid, by simp [hs], by simp [hb], by simp [hw]; omega⟩
      · simp at h

theorem cut?_append (taken mid rest : List Char) :
    cut? taken (width mid) (mid ++ rest) = some (taken.reverse ++ mid, rest) := by
  induction mid generalizing taken with
  | nil => cases rest <;> simp [cut?]
  | cons c mid ih =>
    have hc := Char.utf8Size_pos c
    have hne : c.utf8Size + width mid ≠ 0 := by omega
    simp only [List.cons_append, width_cons, cut?, hne, if_false]
    rw [if_pos (Nat.le_add_right ..), Nat.add_sub_cancel_left, ih]
    simp

theorem splitAt?_eq_some_iff {bytes : Nat} {cs before rest : List Char} :
    splitAt? bytes cs = some (before, rest) ↔ cs = before ++ rest ∧ width before = bytes := by
  constructor
  · intro h
    obtain ⟨mid, hs, hb, hw⟩ := cut?_eq_some h
    simp only [List.reverse_nil, List.nil_append] at hb
    subst hb
    exact ⟨hs, hw⟩
  · rintro ⟨rfl, rfl⟩
    simpa [splitAt?] using cut?_append [] before rest

theorem seek_append (passed mid rest : List Char) :
    seek passed (width mid) (mid ++ rest) = (mid.reverse ++ passed, rest) := by
  induction mid generalizing passed with
  | nil => cases rest <;> simp [seek]
  | cons c mid ih =>
    have hc := Char.utf8Size_pos c
    have hne : c.utf8Size ≠ 0 := by omega
    simp [seek, hne, ih]

theorem slice?_append (before text rest : List Char) :
    slice? (width before) (width before + width text) (before ++ (text ++ rest)) = some text := by
  have outer : splitAt? (width before) (before ++ (text ++ rest)) = some (before, text ++ rest) :=
    splitAt?_eq_some_iff.2 ⟨rfl, rfl⟩
  have inner : splitAt? (width text) (text ++ rest) = some (text, rest) :=
    splitAt?_eq_some_iff.2 ⟨rfl, rfl⟩
  simp [slice?, outer, inner]

end EnumBinding.Text
