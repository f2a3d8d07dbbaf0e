import EnumBinding.Proofs.Header.SpaceLaws
import EnumBinding.Proofs.Text.RunLaws

/-!
# The formulas of version numbers

Numbers, shifts of one number by another, and operands joined by bars, each
group of them in parentheses, with any number of spaces between two signs. A
formula has a text and a value, and no text is that of two formulas
(`text_injective`), so a text has one value.
-/

namespace EnumBinding.Header.Version

open Text (Stops)

abbrev Number := { digits : List Char // digits ≠ [] ∧ digits.all Char.isDigit = true }

def Number.ofDigits (first : Char) (others : List Char)
    (h : (first :: others).all Char.isDigit = true) : Number :=
  ⟨first :: others, List.cons_ne_nil first others, h⟩

def Number.value (number : Number) : Nat := Nat.ofDigitChars 10 number.1 0

/-- An operand stands alone or between bars; formulas joined by bars are no operand without
parentheses. -/
inductive Kind where
  | operand
  | joined
deriving DecidableEq, Repr

/-- A formula as it is written, with the number of spaces at each place that may have some. -/
inductive Formula : Kind → Type
  | number (digits : Number) : Formula .operand
  | shift (before : Nat) (base : Number) (beforeSign afterSign : Nat) (count : Number) (after : Nat) :
      Formula .operand
  | group (before : Nat) (inner : Formula .joined) (after : Nat) : Formula .operand
  | only (operand : Formula .operand) : Formula .joined
  | join (operand : Formula .operand) (beforeBar afterBar : Nat) (others : Formula .joined) :
      Formula .joined
deriving DecidableEq, Repr

namespace Formula

variable {kind : Kind}

def text : {kind : Kind} → Formula kind → List Char
  | _, .number digits => digits.1
  | _, shift before base beforeSign afterSign count after =>
    '(' :: (spaces before ++ (base.1 ++ (spaces beforeSign ++ '<' :: '<' ::
      (spaces afterSign ++ (count.1 ++ (spaces after ++ [')']))))))
  | _, group before inner after => '(' :: (spaces before ++ (inner.text ++ (spaces after ++ [')'])))
  | _, only operand => operand.text
  | _, join operand beforeBar afterBar others =>
    operand.text ++ (spaces beforeBar ++ '|' :: (spaces afterBar ++ others.text))

def value : {kind : Kind} → Formula kind → Nat
  | _, .number digits => digits.value
  | _, shift _ base _ _ count _ => base.value <<< count.value
  | _, group _ inner _ => inner.value
  | _, only operand => operand.value
  | _, join operand _ _ others => operand.value ||| others.value

end Formula

variable {kind : Kind} {e next : Formula kind} {first second rest tail : List Char} {m n : Nat}
  {number : Number} {p : Char → Bool} {c : Char}

-- ---------------------------------------------------------------------------
-- Where the parts of a formula end
-- ---------------------------------------------------------------------------

theorem stops_spaces (hspace : p ' ' = false) (h : Stops p rest) : Stops p (spaces n ++ rest) := by
  refine .append (fun d hd => ?_) h
  rwa [List.eq_of_mem_replicate hd]

theorem spaces_inj (hfirst : Stops (· == ' ') first) (hsecond : Stops (· == ' ') second)
    (h : spaces m ++ first = spaces n ++ second) : m = n ∧ first = second := by
  have hall : ∀ count, (spaces count).all (· == ' ') = true := by simp [spaces]
  obtain ⟨hspaces, hrest⟩ := Text.run_inj (hall m) (hall n) hfirst hsecond h
  exact ⟨by simpa [spaces] using congrArg List.length hspaces, hrest⟩

theorem stops_sign (h : c ≠ ' ') : Stops (· == ' ') (c :: rest) :=
  Text.stops_cons.mpr (beq_eq_false_iff_ne.mpr h)

theorem stops_digits (h : c.isDigit = false) : Stops Char.isDigit (spaces n ++ c :: rest) :=
  stops_spaces rfl (Text.stops_cons.mpr h)

theorem Number.exists_cons (number : Number) : ∃ c cs, number.1 = c :: cs ∧ c.isDigit = true := by
  obtain ⟨digits, hne, hall⟩ := number
  obtain ⟨c, cs, rfl⟩ := List.exists_cons_of_ne_nil hne
  exact ⟨c, cs, rfl, List.all_eq_true.mp hall c List.mem_cons_self⟩

theorem Number.notMem (number : Number) (h : c.isDigit = false) : c ∉ number.1 :=
  Text.notMem_of_all number.2.2 h

theorem Number.append_inj {other : Number} (hrest : Stops Char.isDigit rest)
    (htail : Stops Char.isDigit tail) (h : number.1 ++ rest = other.1 ++ tail) :
    number = other ∧ rest = tail := by
  obtain ⟨hdigits, hsame⟩ := Text.run_inj number.2.2 other.2.2 hrest htail h
  exact ⟨Subtype.ext hdigits, hsame⟩

namespace Formula

theorem exists_cons (e : Formula kind) : ∃ c cs, e.text = c :: cs ∧ (c.isDigit = true ∨ c = '(') := by
  induction e with
  | number number =>
    obtain ⟨c, cs, hnumber, hdigit⟩ := number.exists_cons
    exact ⟨c, cs, hnumber, .inl hdigit⟩
  | shift before base beforeSign afterSign count after => exact ⟨'(', _, rfl, .inr rfl⟩
  | group before inner after => exact ⟨'(', _, rfl, .inr rfl⟩
  | only operand ih => exact ih
  | join operand beforeBar afterBar others ih =>
    obtain ⟨c, cs, hoperand, hc⟩ := ih
    exact ⟨c, _, by rw [text, hoperand, List.cons_append], hc⟩

theorem stops_text (e : Formula kind) (rest : List Char) : Stops (· == ' ') (e.text ++ rest) := by
  obtain ⟨c, cs, htext, hc⟩ := e.exists_cons
  rw [htext, List.cons_append, Text.stops_cons]
  rcases hc with hdigit | rfl
  · rw [beq_eq_false_iff_ne]
    rintro rfl
    cases hdigit
  · rfl

/-- What may follow a formula: nothing that would carry it on. -/
def Ends : Kind → List Char → Prop
  | .operand, rest => Stops Char.isDigit rest
  | .joined, rest => Stops Char.isDigit rest ∧ Stops (· == '|') (rest.dropWhile (· == ' '))

theorem Ends.stops (h : Ends kind rest) : Stops Char.isDigit rest := by
  cases kind with
  | operand => exact h
  | joined => exact h.1

theorem ends_close (after : Nat) (rest : List Char) : Ends .joined (spaces after ++ ')' :: rest) := by
  refine ⟨stops_spaces rfl (Text.stops_cons.mpr rfl), ?_⟩
  rw [Text.dropWhile_run (by simp [spaces]) (Text.stops_cons.mpr rfl)]
  exact Text.stops_cons.mpr rfl

theorem not_ends_bar (beforeBar : Nat) (rest : List Char) :
    ¬ Ends .joined (spaces beforeBar ++ '|' :: rest) := by
  rintro ⟨-, hbar⟩
  rw [Text.dropWhile_run (by simp [spaces]) (Text.stops_cons.mpr rfl)] at hbar
  cases Text.stops_cons.mp hbar

-- ---------------------------------------------------------------------------
-- A text is that of one formula
-- ---------------------------------------------------------------------------

theorem number_inj {next : Formula .operand} (hrest : Stops Char.isDigit rest)
    (htail : Stops Char.isDigit tail) (h : number.1 ++ rest = next.text ++ tail) :
    next = .number number ∧ rest = tail := by
  have hopen : ∀ cs, number.1 ++ rest ≠ '(' :: cs := by
    intro cs hcs
    obtain ⟨c, digits, hnumber, hdigit⟩ := number.exists_cons
    rw [hnumber, List.cons_append] at hcs
    rw [(List.cons.inj hcs).1] at hdigit
    cases hdigit
  cases next with
  | number other =>
    obtain ⟨rfl, hsame⟩ := Number.append_inj hrest htail h
    exact ⟨rfl, hsame⟩
  | shift => exact absurd h (hopen _)
  | group => exact absurd h (hopen _)

theorem shift_ne_group {inner : Formula .joined} :
    number.1 ++ (spaces m ++ '<' :: rest) ≠ inner.text ++ (spaces n ++ ')' :: tail) := by
  intro h
  cases inner with
  | only operand =>
    obtain ⟨-, hsame⟩ := number_inj (stops_digits rfl) (stops_digits rfl) h
    cases (spaces_inj (stops_sign (by decide)) (stops_sign (by decide)) hsame).2
  | join operand beforeBar afterBar others =>
    rw [text, List.append_assoc, List.append_assoc, List.cons_append] at h
    obtain ⟨-, hsame⟩ := number_inj (stops_digits rfl) (stops_digits rfl) h
    cases (spaces_inj (stops_sign (by decide)) (stops_sign (by decide)) hsame).2

theorem shift_append (before : Nat) (base : Number) (beforeSign afterSign : Nat) (count : Number)
    (after : Nat) (rest : List Char) :
    (shift before base beforeSign afterSign count after).text ++ rest =
      '(' :: (spaces before ++ (base.1 ++ (spaces beforeSign ++ '<' :: '<' ::
        (spaces afterSign ++ (count.1 ++ (spaces after ++ ')' :: rest)))))) := by
  simp [text]

theorem group_append (before : Nat) (inner : Formula .joined) (after : Nat) (rest : List Char) :
    (group before inner after).text ++ rest =
      '(' :: (spaces before ++ (inner.text ++ (spaces after ++ ')' :: rest))) := by
  simp [text]

theorem join_append (operand : Formula .operand) (beforeBar afterBar : Nat) (others : Formula .joined)
    (rest : List Char) :
    (join operand beforeBar afterBar others).text ++ rest =
      operand.text ++ (spaces beforeBar ++ '|' :: (spaces afterBar ++ (others.text ++ rest))) := by
  simp [text]

end Formula

theorem Number.stops (number : Number) (rest : List Char) : Stops (· == ' ') (number.1 ++ rest) :=
  (Formula.number number).stops_text rest

namespace Formula

theorem text_append_inj (hrest : Ends kind rest) (htail : Ends kind tail)
    (h : e.text ++ rest = next.text ++ tail) : e = next ∧ rest = tail := by
  -- The rests stay free on both sides: an operand is followed by what is left of its own formula.
  induction e generalizing rest tail with
  | number number =>
    obtain ⟨hnext, hsame⟩ := number_inj hrest.stops htail.stops h
    exact ⟨hnext.symm, hsame⟩
  | shift before base beforeSign afterSign count after =>
    cases next with
    | number number => cases (number_inj htail.stops hrest.stops h.symm).1
    | shift before' base' beforeSign' afterSign' count' after' =>
      rw [shift_append, shift_append, List.cons.injEq] at h
      obtain ⟨rfl, hbase⟩ := spaces_inj (base.stops _) (base'.stops _) h.2
      obtain ⟨rfl, hgap⟩ := Number.append_inj (stops_digits rfl) (stops_digits rfl) hbase
      obtain ⟨rfl, hshift⟩ := spaces_inj (stops_sign (by decide)) (stops_sign (by decide)) hgap
      rw [List.cons.injEq, List.cons.injEq] at hshift
      obtain ⟨rfl, hcount⟩ := spaces_inj (count.stops _) (count'.stops _) hshift.2.2
      obtain ⟨rfl, hend⟩ := Number.append_inj (stops_digits rfl) (stops_digits rfl) hcount
      obtain ⟨rfl, hclose⟩ := spaces_inj (stops_sign (by decide)) (stops_sign (by decide)) hend
      exact ⟨rfl, (List.cons.inj hclose).2⟩
    | group before' inner' after' =>
      rw [shift_append, group_append, List.cons.injEq] at h
      exact absurd (spaces_inj (base.stops _) (inner'.stops_text _) h.2).2 shift_ne_group
  | group before inner after ih =>
    cases next with
    | number number => cases (number_inj htail.stops hrest.stops h.symm).1
    | shift before' base' beforeSign' afterSign' count' after' =>
      rw [shift_append, group_append, List.cons.injEq] at h
      exact absurd (spaces_inj (inner.stops_text _) (base'.stops _) h.2).2.symm shift_ne_group
    | group before' inner' after' =>
      rw [group_append, group_append, List.cons.injEq] at h
      obtain ⟨rfl, hinner⟩ := spaces_inj (inner.stops_text _) (inner'.stops_text _) h.2
      obtain ⟨rfl, hend⟩ := ih (ends_close _ _) (ends_close _ _) hinner
      obtain ⟨rfl, hclose⟩ := spaces_inj (stops_sign (by decide)) (stops_sign (by decide)) hend
      exact ⟨rfl, (List.cons.inj hclose).2⟩
  | only operand ih =>
    cases next with
    | only operand' =>
      obtain ⟨rfl, hsame⟩ := ih hrest.stops htail.stops h
      exact ⟨rfl, hsame⟩
    | join operand' beforeBar' afterBar' others' =>
      rw [join_append] at h
      obtain ⟨-, rfl⟩ := ih hrest.stops (stops_digits rfl) h
      exact absurd hrest (not_ends_bar _ _)
  | join operand beforeBar afterBar others ih ihOthers =>
    cases next with
    | only operand' =>
      rw [join_append] at h
      obtain ⟨-, rfl⟩ := ih (stops_digits rfl) htail.stops h
      exact absurd htail (not_ends_bar _ _)
    | join operand' beforeBar' afterBar' others' =>
      rw [join_append, join_append] at h
      obtain ⟨rfl, hgap⟩ := ih (stops_digits rfl) (stops_digits rfl) h
      obtain ⟨rfl, hbar⟩ := spaces_inj (stops_sign (by decide)) (stops_sign (by decide)) hgap
      obtain ⟨rfl, hothers⟩ :=
        spaces_inj (others.stops_text _) (others'.stops_text _) (List.cons.inj hbar).2
      obtain ⟨rfl, hsame⟩ := ihOthers hrest htail hothers
      exact ⟨rfl, hsame⟩

theorem text_injective : Function.Injective (text : Formula kind → List Char) := by
  have hend : Ends kind [] := by cases kind <;> simp [Ends]
  intro e next h
  exact (text_append_inj hend hend (congrArg (· ++ []) h)).1

end Formula

end EnumBinding.Header.Version
