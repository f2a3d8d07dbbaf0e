import EnumBinding.Proofs.Yaml.LexerLaws
import EnumBinding.Proofs.Yaml.ReaderLaws

/-!
# Block mappings as they are laid out

A block mapping has a line for each of its entries, all at one column, and the
values of the entries may go on over deeper lines. What a value has to do with
the entry around it is only this: it leaves the lexer at the end of a line,
with no more than deeper blocks left to close (`Spells`). So a mapping is read
from its entries one by one, and a sequence from its items, to any depth. A
whole text of entries is read as their mapping (`read?_entries`), unless a key
is longer than YAML allows (`read?_longKey`).
-/

namespace EnumBinding.Yaml

open Lexer (Leads Settles closeBlocks)

variable {c : Char} {cs rest after : List Char} {cursor : Cursor} {tokens spelled : List Token}
  {indents around : List Nat} {lexer : Lexer} {column count : Nat} {inside : Nat → Bool}

-- ---------------------------------------------------------------------------
-- Ends of lines
-- ---------------------------------------------------------------------------

/-- The lexer stands at the end of a line, and these tokens and columns are left once the blocks deeper
than `column` are closed. -/
def Lexer.EndsLine (column : Nat) (tokens : List Token) (indents : List Nat) (rest : List Char)
    (lexer : Lexer) : Prop :=
  ∃ cursor read opened, lexer = { cursor, tokens := read, indents := opened, keyAllowed := false } ∧
    cursor.rest = '\n' :: rest ∧ closeBlocks (column < ·) opened read = (indents, tokens)

theorem Lexer.closeBlocks_head (inside : Nat → Bool) (indents : List Nat) (tokens : List Token) :
    ∀ indent ∈ (closeBlocks inside indents tokens).1.head?, inside indent = false := by
  induction indents generalizing tokens with
  | nil => simp [closeBlocks]
  | cons indent indents ih =>
    cases hinside : inside indent with
    | true => simpa [closeBlocks, hinside] using ih (.blockEnd :: tokens)
    | false => simp [closeBlocks, hinside]

namespace Lexer.EndsLine

theorem close (h : EndsLine count tokens (count :: indents) rest lexer) (hlt : column < count)
    (hindents : ∀ indent ∈ indents.head?, indent ≤ column) :
    EndsLine column (.blockEnd :: tokens) indents rest lexer := by
  obtain ⟨cursor, read, opened, hlexer, hrest, hclosed⟩ := h
  have hinside : ∀ indent, decide (count < indent) = true → decide (column < indent) = true :=
    fun indent hindent => decide_eq_true (Nat.lt_trans hlt (of_decide_eq_true hindent))
  have hboth := closeBlocks_closeBlocks hinside opened read
  have hothers : ∀ indent ∈ indents.head?, decide (column < indent) = false :=
    fun indent hindent => decide_eq_false (Nat.not_lt.mpr (hindents indent hindent))
  rw [hclosed, closeBlocks, if_pos (decide_eq_true hlt), closeBlocks_of_not hothers] at hboth
  exact ⟨cursor, read, opened, hlexer, hrest, hboth.symm⟩

theorem settles (h : EndsLine column tokens indents rest lexer)
    (hrest : rest = List.replicate column ' ' ++ c :: cs) (hc : isSolid c = true) :
    ∃ cursor, Settles lexer cursor tokens indents ∧ cursor.rest = c :: cs ∧
      cursor.column = column := by
  obtain ⟨cursor, read, opened, rfl, hcursor, hclosed⟩ := h
  rw [hrest] at hcursor
  have hsettle := settle?_lineEnd read opened false column hcursor hc
  have hhead := closeBlocks_head (column < ·) opened read
  rw [hclosed] at hsettle hhead
  refine ⟨_, ⟨hsettle, ?_, ?_⟩, rfl, by simp⟩
  · intro indent hindent
    simpa using hhead indent hindent
  · simp [hcursor]
    omega

end Lexer.EndsLine

-- ---------------------------------------------------------------------------
-- Entries
-- ---------------------------------------------------------------------------

structure Entry where
  key : List Char
  /-- What is written behind the colon, up to the end of its last line. -/
  value : List Char
  tokens : List Token
  node : Node

namespace Entry

def text (entry : Entry) : List Char := entry.key ++ ':' :: entry.value

def allTokens (entry : Entry) : List Token :=
  .key :: .scalar entry.key true :: .value :: entry.tokens

def nodes (entry : Entry) : Node × Node :=
  (.scalar none none true (String.ofList entry.key), entry.node)

end Entry

/-- Behind a key at `column`, the text is lexed as these tokens, up to the end of a line. -/
def Spells (column : Nat) (value : List Char) (spelled : List Token) : Prop :=
  ∀ cursor tokens indents rest, cursor.rest = value ++ rest → column < cursor.column →
    indents.head? = some column →
      ∃ next, Leads { cursor, tokens, indents, keyAllowed := false } next ∧
        next.EndsLine column (spelled.reverse ++ tokens) indents rest

/-- The entry is one that a mapping at `column` gives back. -/
structure Entry.Regular (column : Nat) (entry : Entry) : Prop where
  key : IsKey entry.key
  short : entry.key.length ≤ 1024
  alone : ∀ rest, standsAlone (entry.value ++ rest) = true
  spells : Spells column entry.value entry.tokens
  reads : Reads .mapping entry.tokens entry.node

def Entry.lines (column : Nat) (entries : List Entry) : List Char :=
  entries.flatMap fun entry => List.replicate column ' ' ++ entry.text

theorem Entry.lines_cons (column : Nat) (entry : Entry) (entries : List Entry) :
    lines column (entry :: entries) =
      List.replicate column ' ' ++ (entry.text ++ lines column entries) := by
  simp [lines]

theorem Entry.text_solid {entry : Entry} (h : IsKey entry.key) (rest : List Char) :
    ∃ c cs, entry.text ++ rest = c :: cs ∧ isSolid c = true := by
  obtain ⟨c, cs, hkey, -, -, hsolid⟩ := h.exists_cons
  exact ⟨c, _, by rw [text, hkey]; rfl, hsolid⟩

theorem leads_entry {entry : Entry} (hsettles : lexer.Settles cursor tokens indents)
    (hregular : entry.Regular cursor.column) (hrest : cursor.rest = entry.text ++ rest)
    {opened : Lexer} (hopen : ({ cursor, tokens, indents } : Lexer).openBlock cursor.column
      tokens.length .blockMappingStart = opened) :
    ∃ next, Leads lexer next ∧
      next.EndsLine cursor.column (entry.allTokens.reverse ++ opened.tokens) opened.indents rest := by
  rw [Entry.text, List.append_assoc, List.cons_append] at hrest
  have hhead : opened.indents.head? = some cursor.column := by
    rw [← hopen]
    exact Lexer.openBlock_head rfl hsettles.inside
  have hkey := Lexer.leads_key hsettles hregular.key hregular.short hrest (hregular.alone rest) hopen
  obtain ⟨next, hvalue, hends⟩ := hregular.spells
    (cursor.advance (entry.key.length + 1) (entry.value ++ rest))
    (.value :: .scalar entry.key true :: .key :: opened.tokens) opened.indents rest rfl
    (by simp) hhead
  exact ⟨next, hkey.trans hvalue, by simpa [Entry.allTokens] using hends⟩

theorem leads_entries {entries : List Entry} (hregular : ∀ entry ∈ entries, entry.Regular column)
    (h : lexer.EndsLine column tokens (column :: around) (Entry.lines column entries ++ rest)) :
    ∃ next, Leads lexer next ∧ next.EndsLine column
      ((entries.flatMap Entry.allTokens).reverse ++ tokens) (column :: around) rest := by
  induction entries generalizing lexer tokens with
  | nil => exact ⟨lexer, .refl lexer, h⟩
  | cons entry entries ih =>
    obtain ⟨hentry, hentries⟩ := List.forall_mem_cons.mp hregular
    rw [Entry.lines_cons, List.append_assoc, List.append_assoc] at h
    obtain ⟨c, cs, htext, hc⟩ :=
      Entry.text_solid hentry.key (Entry.lines column entries ++ rest)
    obtain ⟨cursor, hsettles, hrest, rfl⟩ := h.settles (by rw [htext]) hc
    obtain ⟨middle, hleads, hends⟩ := leads_entry hsettles hentry (hrest.trans htext.symm)
      (Lexer.openBlock_of_head rfl)
    obtain ⟨next, hothers, hlast⟩ := ih hentries hends
    exact ⟨next, hleads.trans hothers, by simpa using hlast⟩

theorem leads_mapping {first : Entry} {others : List Entry}
    (hsettles : lexer.Settles cursor tokens indents)
    (hinside : ∀ indent ∈ indents.head?, indent < cursor.column)
    (hregular : ∀ entry ∈ first :: others, entry.Regular cursor.column)
    (hrest : cursor.rest = first.text ++ (Entry.lines cursor.column others ++ rest)) :
    ∃ next, Leads lexer next ∧ next.EndsLine cursor.column
      ((.blockMappingStart :: (first :: others).flatMap Entry.allTokens).reverse ++ tokens)
      (cursor.column :: indents) rest := by
  obtain ⟨hfirst, hothers⟩ := List.forall_mem_cons.mp hregular
  have hopen : ({ cursor, tokens, indents } : Lexer).openBlock cursor.column tokens.length
      .blockMappingStart = _ := Lexer.openBlock_of_lt rfl hinside
  rw [Lexer.insert_append [] rfl] at hopen
  obtain ⟨middle, hleads, hends⟩ := leads_entry hsettles hfirst hrest hopen
  obtain ⟨next, hnext, hlast⟩ := leads_entries hothers hends
  exact ⟨next, hleads.trans hnext, by simpa using hlast⟩

-- ---------------------------------------------------------------------------
-- Sequences of mappings
-- ---------------------------------------------------------------------------

structure Item where
  first : Entry
  others : List Entry

namespace Item

def entries (item : Item) : List Entry := item.first :: item.others

def body (column : Nat) (item : Item) : List Char :=
  item.first.text ++ Entry.lines (column + 2) item.others

def allTokens (item : Item) : List Token :=
  .blockMappingStart :: (item.entries.flatMap Entry.allTokens ++ [.blockEnd])

def node (item : Item) : Node := .mapping none (item.entries.map Entry.nodes)

def Regular (column : Nat) (item : Item) : Prop :=
  ∀ entry ∈ item.entries, entry.Regular (column + 2)

def lines (column : Nat) (items : List Item) : List Char :=
  items.flatMap fun item => List.replicate column ' ' ++ '-' :: ' ' :: item.body column

theorem lines_cons (column : Nat) (item : Item) (items : List Item) :
    lines column (item :: items) =
      List.replicate column ' ' ++ '-' :: ' ' :: (item.body column ++ lines column items) := by
  simp [lines]

end Item

theorem leads_item {item : Item} (hsettles : lexer.Settles cursor tokens indents)
    (hregular : item.Regular cursor.column)
    (hrest : cursor.rest = '-' :: ' ' :: (item.body cursor.column ++ rest)) {opened : Lexer}
    (hopen : ({ cursor, tokens, indents } : Lexer).openBlock cursor.column tokens.length
      .blockSequenceStart = opened) :
    ∃ next, Leads lexer next ∧ next.EndsLine cursor.column
      ((.blockEntry :: item.allTokens).reverse ++ opened.tokens) opened.indents rest := by
  have hhead : opened.indents.head? = some cursor.column := by
    rw [← hopen]
    exact Lexer.openBlock_head rfl hsettles.inside
  have hinside : ∀ indent ∈ opened.indents.head?, indent = cursor.column := by simp [hhead]
  rw [Item.body, List.append_assoc] at hrest
  obtain ⟨c, cs, htext, hc⟩ := Entry.text_solid (hregular _ List.mem_cons_self).key
    (Entry.lines (cursor.column + 2) item.others ++ rest)
  rw [htext] at hrest
  obtain ⟨inner, hdash, hinner⟩ := Lexer.leads_dash hsettles hrest hc hopen
  obtain ⟨next, hmapping, hends⟩ := leads_mapping hinner
    (fun indent hindent => by simp [hinside indent hindent]) hregular htext.symm
  have hdeeper : cursor.column < cursor.column + 2 := Nat.lt_add_of_pos_right Nat.two_pos
  have hclosed := hends.close hdeeper fun indent hindent =>
    Nat.le_of_eq (hinside indent hindent)
  exact ⟨next, hdash.trans hmapping, by simpa [Item.allTokens, Item.entries] using hclosed⟩

theorem leads_items {items : List Item} (hregular : ∀ item ∈ items, item.Regular column)
    (h : lexer.EndsLine column tokens (column :: around) (Item.lines column items ++ rest)) :
    ∃ next, Leads lexer next ∧ next.EndsLine column
      ((items.flatMap fun item => .blockEntry :: item.allTokens).reverse ++ tokens)
      (column :: around) rest := by
  induction items generalizing lexer tokens with
  | nil => exact ⟨lexer, .refl lexer, h⟩
  | cons item items ih =>
    obtain ⟨hitem, hitems⟩ := List.forall_mem_cons.mp hregular
    rw [Item.lines_cons, List.append_assoc, List.cons_append, List.cons_append,
      List.append_assoc] at h
    obtain ⟨cursor, hsettles, hrest, rfl⟩ := h.settles rfl rfl
    obtain ⟨middle, hleads, hends⟩ := leads_item hsettles hitem hrest (Lexer.openBlock_of_head rfl)
    obtain ⟨next, hothers, hlast⟩ := ih hitems hends
    exact ⟨next, hleads.trans hothers, by simpa using hlast⟩

-- ---------------------------------------------------------------------------
-- Values
-- ---------------------------------------------------------------------------

theorem spells_items {first : Item} {others : List Item} (hlt : column < count)
    (hregular : ∀ item ∈ first :: others, item.Regular count) :
    Spells column ('\n' :: Item.lines count (first :: others))
      (.blockSequenceStart ::
        (((first :: others).flatMap fun item => .blockEntry :: item.allTokens) ++ [.blockEnd])) := by
  intro cursor tokens indents rest hrest hcolumn hhead
  obtain ⟨hfirst, hothers⟩ := List.forall_mem_cons.mp hregular
  have hinside : ∀ indent ∈ indents.head?, indent = column := by simp [hhead]
  have hdeeper : ∀ indent ∈ indents.head?, indent < count := fun indent hindent =>
    hinside indent hindent ▸ hlt
  have hline : Lexer.EndsLine count tokens indents (Item.lines count (first :: others) ++ rest)
      { cursor, tokens, indents, keyAllowed := false } :=
    ⟨cursor, tokens, indents, rfl, hrest, Lexer.closeBlocks_of_not fun indent hindent =>
      decide_eq_false (Nat.not_lt.mpr (Nat.le_of_lt (hdeeper indent hindent)))⟩
  rw [Item.lines_cons, List.append_assoc, List.cons_append, List.cons_append,
    List.append_assoc] at hline
  obtain ⟨start, hsettles, hstart, rfl⟩ := hline.settles rfl rfl
  have hopen : ({ cursor := start, tokens, indents } : Lexer).openBlock start.column tokens.length
      .blockSequenceStart = _ := Lexer.openBlock_of_lt rfl hdeeper
  rw [Lexer.insert_append [] rfl] at hopen
  obtain ⟨middle, hleads, hends⟩ := leads_item hsettles hfirst hstart hopen
  obtain ⟨next, hnext, hlast⟩ := leads_items hothers hends
  have hclosed := hlast.close hlt fun indent hindent => Nat.le_of_eq (hinside indent hindent)
  exact ⟨next, hleads.trans hnext, by simpa using hclosed⟩

theorem spells_quoted {text : List Char} (htext : text.all isQuotable = true) :
    Spells column (' ' :: '"' :: (text ++ ['"', '\n'])) [.scalar text false] := by
  intro cursor tokens indents rest hrest hcolumn hhead
  have hinside : ∀ indent ∈ indents.head?, indent ≤ cursor.column := by
    simp [hhead, Nat.le_of_lt hcolumn]
  have hvalue : cursor.rest = ' ' :: '"' :: (text ++ '"' :: '\n' :: rest) := by
    simpa using hrest
  refine ⟨_, Lexer.leads_quoted htext hvalue hinside, _, _, _, rfl, rfl, ?_⟩
  exact Lexer.closeBlocks_of_not (by simp [hhead])

theorem spells_emptySequence :
    Spells column (' ' :: '[' :: ']' :: ['\n']) [.flowSequenceStart, .flowSequenceEnd] := by
  intro cursor tokens indents rest hrest hcolumn hhead
  have hinside : ∀ indent ∈ indents.head?, indent ≤ cursor.column := by
    simp [hhead, Nat.le_of_lt hcolumn]
  refine ⟨_, Lexer.leads_emptySequence hrest hinside, _, _, _, rfl, rfl, ?_⟩
  exact Lexer.closeBlocks_of_not (by simp [hhead])

-- ---------------------------------------------------------------------------
-- Whole texts
-- ---------------------------------------------------------------------------

theorem Item.reads {item : Item} {place : Place} (hplace : place ≠ .flow)
    (hregular : item.Regular column) : Reads place item.allTokens item.node :=
  Reader.node?_entries hplace fun entry hentry => (hregular entry hentry).reads

theorem reads_items {items : List Item} (hregular : ∀ item ∈ items, item.Regular column) :
    Reads .mapping
      (.blockSequenceStart ::
        ((items.flatMap fun item => .blockEntry :: item.allTokens) ++ [.blockEnd]))
      (.sequence none (items.map Item.node)) :=
  Reader.node?_items nofun fun item hitem => Item.reads nofun (hregular item hitem)

theorem Lexer.run?_end (h : lexer.EndsLine 0 tokens [0] []) (fuel : Nat) :
    run? (fuel + 1) lexer = some (tokens.reverse ++ [.blockEnd]) := by
  obtain ⟨cursor, read, opened, rfl, hrest, hclosed⟩ := h
  let settled : Lexer := { cursor := cursor.nextLine 1 [], tokens, indents := [0] }
  have hsettle : settle? { cursor, tokens := read, indents := opened, keyAllowed := false } =
      some settled := by
    rw [settle?, hrest, List.length_singleton, passBlanks_lineEnd 1 hrest rfl]
    simp [passBlanks, Cursor.skipWhile, Cursor.readBreak?, Cursor.advance, Cursor.nextLine, moveTo,
      allowKey, dropStale?, refresh?, dedent, closeWhile, inFlow, hclosed, settled]
  rw [run?_succ, hsettle]
  simp [settled, closeAll?, closeWhile, inFlow, closeBlocks, dropKey?, allowKey]

theorem Cursor.ofText_length (text : List Char) :
    (Cursor.ofText text).rest.length ≤ text.length := by
  unfold Cursor.ofText
  split <;> simp

theorem settles_ofText (cs : List Char) (hword : isWordChar c = true) :
    Lexer.Settles { cursor := Cursor.ofText (c :: cs) } { rest := c :: cs } [] [] := by
  have hcursor : Cursor.ofText (c :: cs) = { rest := c :: cs } := by
    unfold Cursor.ofText
    split
    · next hrest =>
      cases hrest
      exact absurd hword (by decide)
    · rfl
  rw [hcursor]
  refine ⟨?_, by simp, Nat.le_refl _⟩
  rw [Lexer.settle?_spaces _ 0 rfl (isSolid_of_isWordChar hword) (by simp) (by simp) (by simp)]
  rfl

variable {entries : List Entry} {entry : Entry}

theorem leads_lines (hne : entries ≠ []) (hregular : ∀ entry ∈ entries, entry.Regular 0)
    (rest : List Char) :
    ∃ next, Leads { cursor := Cursor.ofText (Entry.lines 0 entries ++ rest) } next ∧
      next.EndsLine 0 (.blockMappingStart :: entries.flatMap Entry.allTokens).reverse [0] rest := by
  obtain ⟨first, others, rfl⟩ := List.exists_cons_of_ne_nil hne
  obtain ⟨c, cs, hkey, hword, -, -⟩ := (hregular first List.mem_cons_self).key.exists_cons
  have htext : Entry.lines 0 (first :: others) ++ rest =
      c :: (cs ++ ':' :: first.value ++ (Entry.lines 0 others ++ rest)) := by
    simp [Entry.lines, Entry.text, hkey]
  have hsettles := settles_ofText (cs ++ ':' :: first.value ++ (Entry.lines 0 others ++ rest)) hword
  have hbody : c :: (cs ++ ':' :: first.value ++ (Entry.lines 0 others ++ rest)) =
      first.text ++ (Entry.lines 0 others ++ rest) := by
    simp [Entry.text, hkey]
  obtain ⟨next, hleads, hends⟩ := leads_mapping hsettles (by simp) hregular hbody
  rw [htext]
  exact ⟨next, hleads, by simpa using hends⟩

theorem tokens?_entries (hne : entries ≠ []) (hregular : ∀ entry ∈ entries, entry.Regular 0)
    (hallowed : (Entry.lines 0 entries).all isAllowed = true) :
    tokens? (Entry.lines 0 entries) =
      some (.blockMappingStart :: (entries.flatMap Entry.allTokens ++ [.blockEnd])) := by
  obtain ⟨next, hleads, hends⟩ := leads_lines hne hregular []
  rw [List.append_nil] at hleads
  obtain ⟨left, hrun⟩ := hleads.run? 
    (Nat.lt_succ_of_le (Cursor.ofText_length _))
  rw [tokens?, if_pos hallowed, hrun, Lexer.run?_end hends, List.reverse_reverse, List.cons_append]

theorem tokens?_longKey (hregular : ∀ entry ∈ entries, entry.Regular 0) (hkey : IsKey entry.key)
    (hlong : 1024 < entry.key.length) (halone : ∀ rest, standsAlone (entry.value ++ rest) = true)
    (rest : List Char) : tokens? (Entry.lines 0 entries ++ (entry.text ++ rest)) = none := by
  obtain ⟨c, cs, hcons, hword, -, -⟩ := hkey.exists_cons
  have htext : entry.text ++ rest = entry.key ++ ':' :: (entry.value ++ rest) := by
    simp [Entry.text]
  have hfirst : entry.text ++ rest = c :: (cs ++ ':' :: (entry.value ++ rest)) := by
    rw [htext, hcons, List.cons_append]
  obtain ⟨lexer, cursor, tokens, indents, hleads, hsettles, hrest⟩ :
      ∃ lexer cursor tokens indents,
        Leads { cursor := Cursor.ofText (Entry.lines 0 entries ++ (entry.text ++ rest)) } lexer ∧
        Settles lexer cursor tokens indents ∧ cursor.rest = entry.text ++ rest := by
    cases entries with
    | nil =>
      have hstart := settles_ofText (cs ++ ':' :: (entry.value ++ rest)) hword
      rw [← hfirst] at hstart
      exact ⟨_, _, _, _, .refl _, hstart, rfl⟩
    | cons first others =>
      obtain ⟨next, hleads, hends⟩ := leads_lines (by simp) hregular (entry.text ++ rest)
      obtain ⟨cursor, hsettles, hcursor, -⟩ := hends.settles hfirst (isSolid_of_isWordChar hword)
      exact ⟨next, cursor, _, _, hleads, hsettles, hcursor.trans hfirst.symm⟩
  have hbehind := hleads.trans
    (Lexer.leads_behindKey hsettles hkey (hrest.trans htext) (halone rest))
  unfold tokens?
  split
  · obtain ⟨left, hrun⟩ := hbehind.run? (Nat.lt_succ_of_le (Cursor.ofText_length _))
    rw [hrun, Lexer.run?_longKey hsettles.inside hlong (halone rest)]
  · rfl

/-- A text of entries is the document of their mapping. -/
theorem read?_entries (hne : entries ≠ []) (hregular : ∀ entry ∈ entries, entry.Regular 0)
    (hallowed : (Entry.lines 0 entries).all isAllowed = true) :
    read? (String.ofList (Entry.lines 0 entries)) =
      some (some (.ofRoot (.mapping none (entries.map Entry.nodes)))) := by
  have hreads : Reads .block
      (.blockMappingStart :: (entries.flatMap Entry.allTokens ++ [.blockEnd]))
      (.mapping none (entries.map Entry.nodes)) :=
    Reader.node?_entries nofun fun entry hentry => (hregular entry hentry).reads
  rw [read?, String.toList_ofList, tokens?_entries hne hregular hallowed, Option.bind_some,
    document?_reads hreads]

theorem read?_longKey (hregular : ∀ entry ∈ entries, entry.Regular 0) (hkey : IsKey entry.key)
    (hlong : 1024 < entry.key.length) (halone : ∀ rest, standsAlone (entry.value ++ rest) = true)
    (rest : List Char) :
    read? (String.ofList (Entry.lines 0 entries ++ (entry.text ++ rest))) = none := by
  rw [read?, String.toList_ofList, tokens?_longKey hregular hkey hlong halone, Option.bind_none]

end EnumBinding.Yaml
