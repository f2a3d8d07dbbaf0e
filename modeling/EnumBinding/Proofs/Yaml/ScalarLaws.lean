import EnumBinding.Proofs.Text.RunLaws
import EnumBinding.Yaml.Plain
import EnumBinding.Yaml.Quoted

/-!
# Scalars on one line

The scalars that every YAML reader agrees on: words of ASCII letters, digits and
underscores without quotes, and printable ASCII between double quotes, where
only the quote and the backslash mean more than themselves. Both are read back
as they were written, and the cursor comes to stand right behind them.
-/

namespace EnumBinding.Yaml

open Text (Stops)

def isQuotable (c : Char) : Bool := ' ' ≤ c && c ≤ '~' && c != '"' && c != '\\'

structure IsKey (key : List Char) : Prop where
  word : key.all isWordChar = true
  start : ∃ c cs, key = c :: cs ∧ c ≠ '-'

/-- The characters that no lexer passes over between two tokens. -/
def isSolid (c : Char) : Bool := !(isWhite c || isBreak c || c == '#')

variable {c : Char} {run text key rest after cs : List Char} {cursor : Cursor}

theorem isBreak_of_isQuotable (h : isQuotable c = true) : isBreak c = false := by
  rw [Bool.eq_false_iff]
  intro hbreak
  simp only [isBreak, Bool.or_eq_true, beq_iff_eq] at hbreak
  rcases hbreak with (((rfl | rfl) | rfl) | rfl) | rfl <;> exact absurd h (by decide)

theorem isAllowed_of_toNat (hfirst : 32 ≤ c.toNat) (hlast : c.toNat ≤ 126) :
    isAllowed c = true := by
  have hspace : ' ' ≤ c := UInt32.le_iff_toNat_le.mpr hfirst
  have htilde : c ≤ '~' := UInt32.le_iff_toNat_le.mpr hlast
  simp [isAllowed, hspace, htilde]

theorem isAllowed_of_isQuotable (h : isQuotable c = true) : isAllowed c = true := by
  simp only [isQuotable, Bool.and_eq_true, decide_eq_true_eq] at h
  exact isAllowed_of_toNat (UInt32.le_iff_toNat_le.mp h.1.1.1) (UInt32.le_iff_toNat_le.mp h.1.1.2)

theorem isBreak_of_isWhite (h : isWhite c = true) : isBreak c = false := by
  rcases (by simpa [isWhite] using h : c = ' ' ∨ c = '\t') with rfl | rfl <;> rfl

theorem isSolid_of_isWordChar (h : isWordChar c = true) : isSolid c = true := by
  rw [isSolid, Bool.not_eq_true', Bool.eq_false_iff]
  intro hpassed
  simp only [isWhite, isBreak, Bool.or_eq_true, beq_iff_eq] at hpassed
  rcases hpassed with ((rfl | rfl) | (((rfl | rfl) | rfl) | rfl) | rfl) | rfl <;>
    exact absurd h (by decide)

theorem isSolid_iff : isSolid c = true ↔ isWhite c = false ∧ isBreak c = false ∧ c ≠ '#' := by
  simp [isSolid, and_assoc]

theorem IsKey.exists_cons (h : IsKey key) :
    ∃ c cs, key = c :: cs ∧ isWordChar c = true ∧ c ≠ '-' ∧ isSolid c = true := by
  obtain ⟨c, cs, rfl, hc⟩ := h.start
  have hword := List.all_eq_true.mp h.word c List.mem_cons_self
  exact ⟨c, cs, rfl, hword, hc, isSolid_of_isWordChar hword⟩

-- ---------------------------------------------------------------------------
-- Moving in a line
-- ---------------------------------------------------------------------------

namespace Cursor

@[simp] theorem advance_rest (cursor : Cursor) (count : Nat) (rest : List Char) :
    (cursor.advance count rest).rest = rest := rfl

@[simp] theorem advance_index (cursor : Cursor) (count : Nat) (rest : List Char) :
    (cursor.advance count rest).index = cursor.index + count := rfl

@[simp] theorem advance_line (cursor : Cursor) (count : Nat) (rest : List Char) :
    (cursor.advance count rest).line = cursor.line := rfl

@[simp] theorem advance_column (cursor : Cursor) (count : Nat) (rest : List Char) :
    (cursor.advance count rest).column = cursor.column + count := rfl

@[simp] theorem nextLine_rest (cursor : Cursor) (count : Nat) (rest : List Char) :
    (cursor.nextLine count rest).rest = rest := rfl

@[simp] theorem nextLine_column (cursor : Cursor) (count : Nat) (rest : List Char) :
    (cursor.nextLine count rest).column = 0 := rfl

@[simp] theorem advance_advance (cursor : Cursor) (first second : Nat) (cs rest : List Char) :
    (cursor.advance first cs).advance second rest = cursor.advance (first + second) rest := by
  simp [advance, Nat.add_assoc]

theorem advance_zero (h : cursor.rest = cs) : cursor.advance 0 cs = cursor := by
  rw [← h]
  rfl

theorem skip_append (h : cursor.rest = run ++ rest) :
    cursor.skip run.length = cursor.advance run.length rest := by
  rw [skip, h, List.drop_left]

theorem skip_one (h : cursor.rest = c :: rest) : cursor.skip 1 = cursor.advance 1 rest := by
  rw [skip, h]
  rfl

theorem skipWhile_run (kind : Char → Bool) (h : cursor.rest = run ++ rest)
    (hrun : run.all kind = true) (hrest : Stops kind rest) :
    cursor.skipWhile kind = cursor.advance run.length rest := by
  rw [skipWhile, h, Text.takeWhile_run hrun hrest, Text.dropWhile_run hrun hrest]

theorem readBreak?_of_not (h : cursor.rest = c :: cs) (hc : isBreak c = false) :
    cursor.readBreak? = none := by
  unfold readBreak?
  split
  · next hrest =>
    rw [h] at hrest
    cases hrest
    exact absurd hc (by decide)
  · next hrest =>
    rw [h] at hrest
    cases hrest
    rw [hc]
    rfl
  · rfl

theorem readBreak?_lineEnd (h : cursor.rest = '\n' :: rest) :
    cursor.readBreak? = some ('\n', cursor.nextLine 1 rest) := by
  simp [readBreak?, h, isBreak, normalBreak]

theorem atDocumentMark_of_pos (h : 0 < cursor.column) : cursor.atDocumentMark = false := by
  have hcolumn : (cursor.column == 0) = false := by simpa using Nat.pos_iff_ne_zero.mp h
  simp [atDocumentMark, atMark, hcolumn]

theorem atMark_of_ne {mark : List Char} (h : cursor.rest = c :: cs) (hc : mark.head? ≠ some c)
    (hmark : mark ≠ []) : cursor.atMark mark = false := by
  cases mark with
  | nil => exact absurd rfl hmark
  | cons d mark =>
    have hd : (d == c) = false := by simpa using hc
    simp [atMark, h, List.isPrefixOf, hd]

end Cursor

-- ---------------------------------------------------------------------------
-- Gaps
-- ---------------------------------------------------------------------------

theorem Gap.read?_white {least fuel : Nat} (white : List Char) (hrun : run.all isWhite = true)
    (hfuel : run.length < fuel) (hrest : cursor.rest = run ++ c :: cs) (hwhite : isWhite c = false)
    (hbreak : isBreak c = false) :
    Gap.read? least fuel { white } cursor =
      some ({ white := white ++ run }, cursor.advance run.length (c :: cs)) := by
  induction run generalizing fuel white cursor with
  | nil =>
    obtain ⟨fuel, rfl⟩ := Nat.exists_eq_succ_of_ne_zero (Nat.ne_of_gt hfuel)
    have hstay : cursor.advance 0 (c :: cs) = cursor := Cursor.advance_zero hrest
    rw [read?, Cursor.readBreak?_of_not hrest hbreak]
    simp [hrest, hwhite, hstay]
  | cons d run ih =>
    obtain ⟨hd, hrun⟩ : isWhite d = true ∧ run.all isWhite = true := by simpa using hrun
    obtain ⟨fuel, rfl⟩ := Nat.exists_eq_succ_of_ne_zero (Nat.ne_zero_of_lt hfuel)
    have hnext := ih (white ++ [d]) hrun (Nat.lt_of_succ_lt_succ hfuel)
      (cursor.advance_rest 1 (run ++ c :: cs))
    rw [Cursor.advance_advance, Nat.add_comm 1, List.append_assoc] at hnext
    rw [read?, Cursor.readBreak?_of_not hrest (isBreak_of_isWhite hd)]
    simpa [hrest, hd] using hnext

theorem Cursor.readGap?_white (least : Nat) (hrun : run.all isWhite = true)
    (hrest : cursor.rest = run ++ c :: cs) (hwhite : isWhite c = false) (hbreak : isBreak c = false) :
    cursor.readGap? least = some ({ white := run }, cursor.advance run.length (c :: cs)) := by
  have hfuel : run.length < cursor.rest.length + 1 := by
    rw [hrest, List.length_append]
    omega
  exact Gap.read?_white [] hrun hfuel hrest hwhite hbreak

-- ---------------------------------------------------------------------------
-- Scalars
-- ---------------------------------------------------------------------------

namespace Quoted

theorem read?_char {fuel : Nat} (hrest : cursor.rest = c :: cs) (hc : isQuotable c = true)
    (hwhite : isWhite c = false) :
    read? .double (fuel + 1) cursor =
      (read? .double fuel (cursor.advance 1 cs)).map fun (text, last) => (c :: text, last) := by
  have hquote : c ≠ '"' := Text.ne_of_kind hc rfl
  have hslash : c ≠ '\\' := Text.ne_of_kind hc rfl
  cases hread : read? .double fuel (cursor.advance 1 cs) <;>
    simp [read?, hrest, hwhite, isBreak_of_isQuotable hc, hquote, hslash, QuoteStyle.mark,
      Cursor.skip_one hrest, hread]

theorem read?_gap {fuel : Nat} (hne : run ≠ []) (hrun : run.all isWhite = true)
    (hrest : cursor.rest = run ++ c :: cs) (hwhite : isWhite c = false) (hbreak : isBreak c = false)
    (hcolumn : 0 < cursor.column) :
    read? .double (fuel + 1) cursor =
      (read? .double fuel (cursor.advance run.length (c :: cs))).map fun (text, last) =>
        (run ++ text, last) := by
  have hgap := Cursor.readGap?_white 0 hrun hrest hwhite hbreak
  have hmark (count : Nat) (rest : List Char) :
      (cursor.advance count rest).atDocumentMark = false :=
    Cursor.atDocumentMark_of_pos (Nat.lt_of_lt_of_le hcolumn (Nat.le_add_right _ _))
  obtain ⟨d, tail, rfl⟩ := List.exists_cons_of_ne_nil hne
  have hd : isWhite d = true := by simp_all
  cases hread : read? .double fuel (cursor.advance (tail.length + 1) (c :: cs)) <;>
    simp [read?, hrest, hd, hgap, hmark, Gap.fold, hread]

/-- A text in quotes is its words and the gaps between them. -/
theorem read?_quotable {fuel : Nat} (htext : text.all isQuotable = true)
    (hrest : cursor.rest = text ++ '"' :: after) (hcolumn : 0 < cursor.column)
    (hfuel : text.length < fuel) :
    read? .double fuel cursor = some (text, cursor.advance (text.length + 1) after) := by
  -- A gap is one step, however long it is, so the induction is not on the text.
  induction fuel generalizing text cursor with
  | zero => cases hfuel
  | succ fuel ih =>
    cases text with
    | nil => simp [read?, hrest, isWhite, isBreak, QuoteStyle.mark, Cursor.skip_one hrest]
    | cons c text =>
      obtain ⟨hc, hquotable⟩ : isQuotable c = true ∧ text.all isQuotable = true := by
        simpa using htext
      cases hwhite : isWhite c with
      | false =>
        rw [List.cons_append] at hrest
        rw [read?_char hrest hc hwhite,
          ih hquotable (cursor.advance_rest 1 _) (by simp) (Nat.lt_of_succ_lt_succ hfuel)]
        simp [Nat.add_comm]
      | true =>
        let gap := (c :: text).takeWhile isWhite
        let words := (c :: text).dropWhile isWhite
        have hsplit : gap ++ words = c :: text := List.takeWhile_append_dropWhile
        have hgap : gap ≠ [] := by simp [gap, hwhite]
        have hwords : words.all isQuotable = true := by
          rw [← hsplit, List.all_append] at htext
          exact (Bool.and_eq_true_iff.mp htext).2
        obtain ⟨d, tail, htail, hd, hbreak⟩ : ∃ d tail, words ++ '"' :: after = d :: tail ∧
            isWhite d = false ∧ isBreak d = false := by
          have hstops : Stops isWhite words := Text.stops_dropWhile isWhite _
          cases hcases : words with
          | nil => exact ⟨'"', after, rfl, rfl, rfl⟩
          | cons d tail =>
            rw [hcases] at hstops hwords
            exact ⟨d, _, rfl, Text.stops_cons.mp hstops,
              isBreak_of_isQuotable (List.all_eq_true.mp hwords d List.mem_cons_self)⟩
        have hlength : gap.length + words.length = text.length + 1 := by
          rw [← List.length_append, hsplit, List.length_cons]
        have hpos := List.length_pos_iff.mpr hgap
        rw [List.length_cons] at hfuel
        rw [read?_gap hgap List.all_takeWhile (by rw [hrest, ← hsplit, List.append_assoc, htail])
          hd hbreak hcolumn, ← htail, ih hwords (cursor.advance_rest _ _) (by simp; omega) (by omega)]
        simp [hsplit, ← hlength, Nat.add_assoc]

end Quoted

theorem Cursor.readQuoted?_quotable (htext : text.all isQuotable = true)
    (hrest : cursor.rest = '"' :: (text ++ '"' :: after)) :
    cursor.readQuoted? .double = some (text, cursor.advance (text.length + 2) after) := by
  have hfuel : text.length < cursor.rest.length + 1 := by
    simp [hrest]
    omega
  rw [readQuoted?, skip_one hrest, Quoted.read?_quotable htext (advance_rest _ _ _) (by simp) hfuel,
    advance_advance, Nat.add_comm 1]

theorem Plain.word?_key (hkey : key.all isWordChar = true) (hafter : standsAlone after = true) :
    Plain.word? false (key ++ ':' :: after) = some key := by
  induction key with
  | nil => simp [word?, hafter]
  | cons c key ih =>
    obtain ⟨hc, hkey⟩ : isWordChar c = true ∧ key.all isWordChar = true := by simpa using hkey
    obtain ⟨hwhite, hbreak, -⟩ := isSolid_iff.mp (isSolid_of_isWordChar hc)
    have hcolon : c ≠ ':' := Text.ne_of_kind hc rfl
    simp [word?, hwhite, hbreak, hcolon, ih hkey]

theorem Cursor.readPlain?_key {least : Nat} (hkey : IsKey key)
    (hrest : cursor.rest = key ++ ':' :: after) (hafter : standsAlone after = true) :
    cursor.readPlain? false least =
      some { text := key, broken := false, cursor := cursor.advance key.length (':' :: after) } := by
  obtain ⟨c, cs, rfl, hc, hdash, hsolid⟩ := hkey.exists_cons
  obtain ⟨-, -, hcomment⟩ := isSolid_iff.mp hsolid
  have hdot : c ≠ '.' := Text.ne_of_kind hc rfl
  have hmark : cursor.atDocumentMark = false := by
    rw [atDocumentMark, atMark_of_ne hrest (by simpa using Ne.symm hdash) (by decide),
      atMark_of_ne hrest (by simpa using Ne.symm hdot) (by decide)]
    rfl
  have hhead : cursor.rest.head? = some c := by rw [hrest, List.cons_append, List.head?_cons]
  have hword : Plain.word? false cursor.rest = some (c :: cs) := by
    rw [hrest, Plain.word?_key hkey.word hafter]
  have hgap (count : Nat) : (cursor.advance count (':' :: after)).readGap? least =
      some ({}, cursor.advance count (':' :: after)) :=
    readGap?_white least List.all_nil (List.nil_append _).symm rfl rfl
  simp [-List.length_cons, readPlain?, Plain.read?, hmark, hhead, hcomment, hword,
    skip_append hrest, hgap, Gap.fold]

end EnumBinding.Yaml
