import EnumBinding.Proofs.Yaml.ScalarLaws
import EnumBinding.Yaml.Lexer

/-!
# One token after the other

The lexer settles before a token and then reads it (`run?_succ`). What it does
over a part of a text is said by the state that it leads to (`Leads`), with no
more steps than characters, so that the fuel of a whole text is never used up.
The laws here are those of the tokens of one line: a key and its colon, the two
scalars, an empty sequence and the dash of an item.
-/

namespace EnumBinding.Yaml.Lexer

open Text (Stops)

variable {c : Char} {cs rest after key text : List Char} {cursor : Cursor} {tokens : List Token}
  {indents : List Nat} {lexer next last : Lexer} {inside : Nat → Bool} {column fuel : Nat}

-- ---------------------------------------------------------------------------
-- Settling before a token
-- ---------------------------------------------------------------------------

/-- The state in which the next token is read, behind all blanks and closed blocks. -/
def settle? (lexer : Lexer) : Option Lexer :=
  (passBlanks (lexer.cursor.rest.length + 1) lexer).dropStale?.map dedent

theorem run?_succ (fuel : Nat) (lexer : Lexer) :
    run? (fuel + 1) lexer = lexer.settle?.bind fun lexer =>
      match lexer.cursor.rest with
      | [] => lexer.closeAll?.map (·.tokens.reverse)
      | c :: cs => (lexer.token? c cs).bind (run? fuel) := by
  simp only [run?, settle?]
  cases (passBlanks (lexer.cursor.rest.length + 1) lexer).dropStale? with
  | none => rfl
  | some settled =>
    simp only [Option.bind_eq_bind, Option.bind_some, Option.map_some]
    cases settled.dedent.cursor.rest with
    | nil => cases settled.dedent.closeAll? <;> rfl
    | cons c cs => rfl

theorem closeBlocks_of_not (h : ∀ indent ∈ indents.head?, inside indent = false) :
    closeBlocks inside indents tokens = (indents, tokens) := by
  cases indents with
  | nil => rfl
  | cons indent indents => simp [closeBlocks, h indent rfl]

theorem closeWhile_of_not (h : ∀ indent ∈ lexer.indents.head?, inside indent = false) :
    lexer.closeWhile inside = lexer := by
  unfold closeWhile
  split
  · rfl
  · rw [closeBlocks_of_not h]

theorem closeBlocks_closeBlocks {outer : Nat → Bool}
    (h : ∀ indent, inside indent = true → outer indent = true) (indents : List Nat)
    (tokens : List Token) :
    closeBlocks outer (closeBlocks inside indents tokens).1 (closeBlocks inside indents tokens).2 =
      closeBlocks outer indents tokens := by
  induction indents generalizing tokens with
  | nil => rfl
  | cons indent indents ih =>
    cases hinside : inside indent with
    | false => simp [closeBlocks, hinside]
    | true => simp [closeBlocks, hinside, h indent hinside, ih]

theorem passBlanks_spaces (count fuel : Nat)
    (hrest : lexer.cursor.rest = List.replicate count ' ' ++ c :: cs) (hc : isSolid c = true) :
    passBlanks (fuel + 1) lexer = lexer.moveTo (lexer.cursor.advance count (c :: cs)) := by
  obtain ⟨hwhite, hbreak, hcomment⟩ := isSolid_iff.mp hc
  obtain ⟨hspace, htab⟩ : c ≠ ' ' ∧ c ≠ '\t' := by simpa [isWhite] using hwhite
  have hskip := Cursor.skipWhile_run
    (fun c => c == ' ' || ((lexer.inFlow || !lexer.keyAllowed) && c == '\t')) hrest
    (by simp) (Text.stops_cons.mpr (by simp [hspace, htab]))
  have hbreak : (lexer.cursor.advance count (c :: cs)).readBreak? = none :=
    Cursor.readBreak?_of_not (Cursor.advance_rest _ _ _) hbreak
  rw [List.length_replicate] at hskip
  simp [passBlanks, hskip, hcomment, hbreak]

theorem passBlanks_lineEnd (fuel : Nat) (hrest : lexer.cursor.rest = '\n' :: cs)
    (hflow : lexer.inFlow = false) :
    passBlanks (fuel + 1) lexer =
      passBlanks fuel ((lexer.moveTo (lexer.cursor.nextLine 1 cs)).allowKey true) := by
  have hskip := Cursor.skipWhile_run (fun c => c == ' ' || (!lexer.keyAllowed && c == '\t'))
    (hrest.trans (List.nil_append _).symm) (by simp) (Text.stops_cons.mpr (by simp))
  rw [List.length_nil, Cursor.advance_zero hrest] at hskip
  simp [passBlanks, hskip, hrest, hflow, Cursor.readBreak?_lineEnd hrest]

theorem dropStale?_fresh (hkey : ∀ start ∈ lexer.keyStart,
    KeyStart.isStale start lexer.cursor = false)
    (houter : ∀ start? ∈ lexer.outerKeys, start? = none) : lexer.dropStale? = some lexer := by
  have hrefresh : refresh? lexer.cursor lexer.keyStart = some lexer.keyStart := by
    cases hstart : lexer.keyStart with
    | none => rfl
    | some start => simp [refresh?, hkey start hstart]
  have houters : lexer.outerKeys.mapM (refresh? lexer.cursor) = some lexer.outerKeys := by
    generalize lexer.outerKeys = outers at houter
    induction outers with
    | nil => rfl
    | cons start? outers ih =>
      obtain ⟨rfl, houters⟩ := List.forall_mem_cons.mp houter
      simp [refresh?, ih houters]
  simp [dropStale?, hrefresh, houters]

theorem settle?_spaces (lexer : Lexer) (count : Nat)
    (hrest : lexer.cursor.rest = List.replicate count ' ' ++ c :: cs) (hc : isSolid c = true)
    (hkey : ∀ start ∈ lexer.keyStart,
      KeyStart.isStale start (lexer.cursor.advance count (c :: cs)) = false)
    (houter : ∀ start? ∈ lexer.outerKeys, start? = none)
    (hinside : ∀ indent ∈ lexer.indents.head?, indent ≤ lexer.cursor.column + count) :
    lexer.settle? = some (lexer.moveTo (lexer.cursor.advance count (c :: cs))) := by
  have hfresh : (lexer.moveTo (lexer.cursor.advance count (c :: cs))).dropStale? = _ :=
    dropStale?_fresh hkey houter
  have hdedent : (lexer.moveTo (lexer.cursor.advance count (c :: cs))).dedent = _ :=
    closeWhile_of_not fun indent hindent =>
      decide_eq_false (Nat.not_lt.mpr (hinside indent hindent))
  rw [settle?, passBlanks_spaces count _ hrest hc, hfresh, Option.map_some, hdedent]

/-- Over the end of a line it settles on the first token of the next line, behind the blocks that end
before that. -/
theorem settle?_lineEnd (tokens : List Token) (indents : List Nat) (keyAllowed : Bool) (count : Nat)
    (hrest : cursor.rest = '\n' :: (List.replicate count ' ' ++ c :: cs)) (hc : isSolid c = true) :
    settle? { cursor, tokens, indents, keyAllowed } = some
      { cursor := (cursor.nextLine 1 (List.replicate count ' ' ++ c :: cs)).advance count (c :: cs)
        tokens := (closeBlocks (count < ·) indents tokens).2
        indents := (closeBlocks (count < ·) indents tokens).1 } := by
  obtain ⟨size, hsize⟩ : ∃ size, cursor.rest.length = size + 1 := ⟨_, by rw [hrest]; rfl⟩
  rw [settle?, hsize, passBlanks_lineEnd _ hrest rfl,
    passBlanks_spaces count _ (Cursor.nextLine_rest _ _ _) hc,
    dropStale?_fresh (by simp [moveTo, allowKey]) (by simp [moveTo, allowKey])]
  simp [moveTo, allowKey, dedent, closeWhile, inFlow]

-- ---------------------------------------------------------------------------
-- From state to state
-- ---------------------------------------------------------------------------

/-- The lexer comes from one state to another, with no more steps than characters. -/
def Leads (lexer next : Lexer) : Prop :=
  ∃ count, count + next.cursor.rest.length ≤ lexer.cursor.rest.length ∧
    ∀ fuel, run? (fuel + count) lexer = run? fuel next

theorem Leads.refl (lexer : Lexer) : Leads lexer lexer := ⟨0, by simp, fun _ => rfl⟩

theorem Leads.trans (h : Leads lexer next) (hnext : Leads next last) : Leads lexer last := by
  obtain ⟨count, hle, hrun⟩ := h
  obtain ⟨count', hle', hrun'⟩ := hnext
  refine ⟨count' + count, by omega, fun fuel => ?_⟩
  rw [← Nat.add_assoc, hrun, hrun']

theorem Leads.of_token? {settled : Lexer} (hsettle : lexer.settle? = some settled)
    (hrest : settled.cursor.rest = c :: cs) (htoken : settled.token? c cs = some next)
    (hlt : next.cursor.rest.length < lexer.cursor.rest.length) : Leads lexer next := by
  refine ⟨1, by omega, fun fuel => ?_⟩
  rw [run?_succ, hsettle, Option.bind_some, hrest]
  simp only [htoken, Option.bind_some]

/-- A whole run has fuel left at every state that it leads to. -/
theorem Leads.run? (h : Leads lexer next) (hfuel : lexer.cursor.rest.length < fuel) :
    ∃ left, Lexer.run? fuel lexer = Lexer.run? (left + 1) next := by
  obtain ⟨count, hle, hrun⟩ := h
  refine ⟨fuel - count - 1, ?_⟩
  rw [← hrun]
  congr 1
  omega

-- ---------------------------------------------------------------------------
-- Single tokens
-- ---------------------------------------------------------------------------

theorem openBlock_of_head {token : Token} {number : Nat} (h : lexer.indents.head? = some column) :
    lexer.openBlock column number token = lexer := by
  obtain ⟨indents, hindents⟩ := List.head?_eq_some_iff.mp h
  have hleast : ¬ lexer.leastColumn ≤ column := by
    rw [leastColumn, hindents]
    exact Nat.not_succ_le_self column
  simp [openBlock, hleast]

theorem openBlock_of_lt {token : Token} {number : Nat} (hflow : lexer.inFlow = false)
    (h : ∀ indent ∈ lexer.indents.head?, indent < column) :
    lexer.openBlock column number token =
      { lexer.insert number token with indents := column :: lexer.indents } := by
  have hleast : lexer.leastColumn ≤ column := by
    unfold leastColumn
    split
    · exact Nat.zero_le column
    · next hindents => exact h _ (by simp [hindents])
  simp [openBlock, hleast, hflow]

theorem openBlock_head {token : Token} {number : Nat} (hflow : lexer.inFlow = false)
    (h : ∀ indent ∈ lexer.indents.head?, indent ≤ column) :
    (lexer.openBlock column number token).indents.head? = some column := by
  by_cases hhead : lexer.indents.head? = some column
  · rw [openBlock_of_head hhead, hhead]
  · rw [openBlock_of_lt hflow fun indent hindent =>
      Nat.lt_of_le_of_ne (h indent hindent) fun heq => hhead (heq ▸ hindent)]
    rfl

theorem insert_append {token : Token} (since : List Token) (h : lexer.tokens = since ++ tokens) :
    lexer.insert tokens.length token = { lexer with tokens := since ++ token :: tokens } := by
  simp [insert, h]

theorem atMark_of_not (hrest : lexer.cursor.rest = c :: cs) (hdash : c ≠ '-') (hdot : c ≠ '.') :
    lexer.cursor.atMark ['-', '-', '-'] = false ∧ lexer.cursor.atMark ['.', '.', '.'] = false :=
  ⟨Cursor.atMark_of_ne hrest (by simpa using Ne.symm hdash) (by decide),
    Cursor.atMark_of_ne hrest (by simpa using Ne.symm hdot) (by decide)⟩

theorem token?_quote (hrest : lexer.cursor.rest = '"' :: cs) :
    lexer.token? '"' cs = lexer.quoted? .double := by
  simp [token?, atMark_of_not hrest]

theorem token?_openSequence (hrest : lexer.cursor.rest = '[' :: cs) :
    lexer.token? '[' cs = lexer.openFlow? .flowSequenceStart := by
  simp [token?, atMark_of_not hrest]

theorem token?_closeSequence (hrest : lexer.cursor.rest = ']' :: cs) :
    lexer.token? ']' cs = lexer.closeFlow? .flowSequenceEnd := by
  simp [token?, atMark_of_not hrest]

theorem token?_colon (hrest : lexer.cursor.rest = ':' :: cs) (halone : standsAlone cs = true) :
    lexer.token? ':' cs = lexer.value? := by
  simp [token?, atMark_of_not hrest, halone]

theorem token?_dash (hrest : lexer.cursor.rest = '-' :: ' ' :: cs) :
    lexer.token? '-' (' ' :: cs) = lexer.blockEntry? := by
  simp [token?, Cursor.atMark, hrest, standsAlone, isWhite]

theorem token?_word (hrest : lexer.cursor.rest = c :: cs) (hc : isWordChar c = true)
    (hdash : c ≠ '-') : lexer.token? c cs = lexer.plain? := by
  have hne (d : Char) (hd : isWordChar d = false) : c ≠ d := Text.ne_of_kind hc hd
  obtain ⟨hwhite, hbreak, -⟩ := isSolid_iff.mp (isSolid_of_isWordChar hc)
  have hplain : beginsPlain lexer.inFlow c cs = true := by
    simp (disch := decide) [beginsPlain, isIndicator, hwhite, hbreak, hdash, hne]
  have hmarks := atMark_of_not hrest hdash (hne '.' rfl)
  simp (disch := decide) [token?, hmarks, hplain, hdash, hne]

-- ---------------------------------------------------------------------------
-- Keys
-- ---------------------------------------------------------------------------

/-- The lexer settles in a block, at a place where a key may begin. -/
structure Settles (lexer : Lexer) (cursor : Cursor) (tokens : List Token) (indents : List Nat) :
    Prop where
  settle : lexer.settle? = some { cursor, tokens, indents }
  inside : ∀ indent ∈ indents.head?, indent ≤ cursor.column
  shorter : cursor.rest.length ≤ lexer.cursor.rest.length

/-- The state behind a key, of which it is not yet known that it is one. -/
def behindKey (cursor : Cursor) (tokens : List Token) (indents : List Nat) (key after : List Char) :
    Lexer where
  cursor := cursor.advance key.length (':' :: after)
  tokens := .scalar key true :: tokens
  indents := indents
  keyStart := some ⟨tokens.length, cursor, indents.head? == some cursor.column⟩
  keyAllowed := false

theorem leads_behindKey (hsettles : lexer.Settles cursor tokens indents) (hkey : IsKey key)
    (hrest : cursor.rest = key ++ ':' :: after) (halone : standsAlone after = true) :
    Leads lexer (behindKey cursor tokens indents key after) := by
  obtain ⟨c, cs, hcons, hc, hdash, -⟩ := hkey.exists_cons
  have hfirst : cursor.rest = c :: (cs ++ ':' :: after) := by rw [hrest, hcons, List.cons_append]
  have hplain : ({ cursor, tokens, indents } : Lexer).plain? =
      some (behindKey cursor tokens indents key after) := by
    simp [plain?, saveKey?, dropKey?, inFlow, allowKey, emit, moveTo, behindKey,
      Cursor.readPlain?_key hkey hrest halone]
  refine .of_token? hsettles.settle hfirst ((token?_word hfirst hc hdash).trans hplain) ?_
  have hshorter := hsettles.shorter
  rw [hrest, List.length_append, hcons, List.length_cons] at hshorter
  simp only [behindKey, Cursor.advance_rest]
  omega

theorem value?_behindKey (hinside : ∀ indent ∈ indents.head?, indent ≤ cursor.column)
    {opened : Lexer} (hopen : ({ cursor, tokens, indents } : Lexer).openBlock cursor.column
      tokens.length .blockMappingStart = opened) :
    (behindKey cursor tokens indents key after).value? = some
      { cursor := cursor.advance (key.length + 1) after
        tokens := .value :: .scalar key true :: .key :: opened.tokens
        indents := opened.indents
        keyAllowed := false } := by
  let scanned : Lexer :=
    { behindKey cursor tokens indents key after with
      tokens := [.scalar key true] ++ .key :: tokens }
  have hkey : (behindKey cursor tokens indents key after).insert tokens.length .key = scanned :=
    insert_append [.scalar key true] rfl
  have hvalue : (behindKey cursor tokens indents key after).value? =
      some (({ ((behindKey cursor tokens indents key after).insert tokens.length .key).openBlock
        cursor.column tokens.length .blockMappingStart with keyStart := none }.allowKey
          false).indicator 1 .value) := rfl
  rw [hvalue, hkey]
  by_cases hhead : indents.head? = some cursor.column
  · rw [openBlock_of_head hhead] at hopen
    rw [openBlock_of_head hhead, ← hopen]
    rfl
  · have hlt : ∀ indent ∈ indents.head?, indent < cursor.column := fun indent hindent =>
      Nat.lt_of_le_of_ne (hinside indent hindent) fun heq => hhead (heq ▸ hindent)
    rw [openBlock_of_lt rfl hlt, insert_append [] rfl] at hopen
    rw [openBlock_of_lt rfl hlt, insert_append [.scalar key true, .key] rfl, ← hopen]
    rfl

theorem leads_key (hsettles : lexer.Settles cursor tokens indents) (hkey : IsKey key)
    (hshort : key.length ≤ 1024) (hrest : cursor.rest = key ++ ':' :: after)
    (halone : standsAlone after = true) {opened : Lexer}
    (hopen : ({ cursor, tokens, indents } : Lexer).openBlock cursor.column tokens.length
      .blockMappingStart = opened) :
    Leads lexer
      { cursor := cursor.advance (key.length + 1) after
        tokens := .value :: .scalar key true :: .key :: opened.tokens
        indents := opened.indents
        keyAllowed := false } := by
  refine (leads_behindKey hsettles hkey hrest halone).trans ?_
  have hsettle := settle?_spaces (behindKey cursor tokens indents key after) 0 rfl rfl
    (by simp [behindKey, KeyStart.isStale, hshort]) (by simp [behindKey]) (by
      intro indent hindent
      exact Nat.le_trans (hsettles.inside indent hindent) (by simp [behindKey]))
  refine .of_token? hsettle rfl ((token?_colon rfl halone).trans ?_) (by simp [behindKey])
  exact value?_behindKey hsettles.inside hopen

/-- Behind too long a word a colon is refused: either a key had to stand there, or none may any more. -/
theorem run?_longKey (hinside : ∀ indent ∈ indents.head?, indent ≤ cursor.column)
    (hlong : 1024 < key.length) (halone : standsAlone after = true) (fuel : Nat) :
    run? fuel (behindKey cursor tokens indents key after) = none := by
  cases fuel with
  | zero => rfl
  | succ fuel =>
    have hstale (required : Bool) : KeyStart.isStale ⟨tokens.length, cursor, required⟩
        (cursor.advance key.length (':' :: after)) = true := by
      simp [KeyStart.isStale, hlong]
    rw [run?_succ, settle?, passBlanks_spaces 0 _ rfl rfl]
    cases hrequired : indents.head? == some cursor.column with
    | true => simp [behindKey, moveTo, dropStale?, refresh?, hstale, hrequired]
    | false =>
      let given : Lexer :=
        { cursor := cursor.advance key.length (':' :: after)
          tokens := .scalar key true :: tokens
          indents
          keyAllowed := false }
      have hdrop : ((behindKey cursor tokens indents key after).moveTo
          ((behindKey cursor tokens indents key after).cursor.advance 0 (':' :: after))).dropStale? =
            some given := by
        simp [behindKey, moveTo, dropStale?, refresh?, hstale, hrequired, given]
      have hdedent : given.dedent = given := closeWhile_of_not fun indent hindent =>
        decide_eq_false (Nat.not_lt.mpr (Nat.le_add_right_of_le (hinside indent hindent)))
      have htoken : given.token? ':' after = none := by
        rw [token?_colon rfl halone]
        rfl
      rw [hdrop, Option.map_some, hdedent, Option.bind_some]
      change (given.token? ':' after).bind _ = none
      rw [htoken, Option.bind_none]

-- ---------------------------------------------------------------------------
-- Values
-- ---------------------------------------------------------------------------

theorem leads_quoted (htext : text.all isQuotable = true)
    (hrest : cursor.rest = ' ' :: '"' :: (text ++ '"' :: after))
    (hinside : ∀ indent ∈ indents.head?, indent ≤ cursor.column) :
    Leads { cursor, tokens, indents, keyAllowed := false }
      { cursor := cursor.advance (text.length + 3) after
        tokens := .scalar text false :: tokens
        indents
        keyAllowed := false } := by
  have hsettle := settle?_spaces { cursor, tokens, indents, keyAllowed := false } 1 hrest
    rfl (by simp) (by simp) fun indent hindent => Nat.le_add_right_of_le (hinside indent hindent)
  refine .of_token? hsettle rfl ((token?_quote rfl).trans ?_) (by simp [hrest]; omega)
  have hread := Cursor.readQuoted?_quotable htext
    (Cursor.advance_rest cursor 1 ('"' :: (text ++ '"' :: after)))
  simp [quoted?, read?, saveKey?, moveTo, allowKey, emit, hread, Nat.add_left_comm]

theorem leads_emptySequence (hrest : cursor.rest = ' ' :: '[' :: ']' :: after)
    (hinside : ∀ indent ∈ indents.head?, indent ≤ cursor.column) :
    Leads { cursor, tokens, indents, keyAllowed := false }
      { cursor := cursor.advance 3 after
        tokens := .flowSequenceEnd :: .flowSequenceStart :: tokens
        indents
        keyAllowed := false } := by
  let opened : Lexer :=
    { cursor := cursor.advance 2 (']' :: after)
      tokens := .flowSequenceStart :: tokens
      indents
      outerKeys := [none] }
  have hopen : Leads { cursor, tokens, indents, keyAllowed := false } opened :=
    .of_token? (settle?_spaces _ 1 hrest rfl (by simp) (by simp)
      fun indent hindent => Nat.le_add_right_of_le (hinside indent hindent)) rfl
      ((token?_openSequence rfl).trans rfl) (by simp [opened, hrest])
  have hclose : opened.settle? = some opened := by
    rw [settle?_spaces opened 0 rfl rfl (by simp [opened]) (by simp [opened])
      fun indent hindent => Nat.le_trans (hinside indent hindent) (Nat.le_add_right _ 2)]
    rfl
  exact hopen.trans (.of_token? hclose rfl ((token?_closeSequence rfl).trans rfl) (by simp [opened]))

-- ---------------------------------------------------------------------------
-- Items
-- ---------------------------------------------------------------------------

theorem leads_dash (hsettles : lexer.Settles cursor tokens indents)
    (hrest : cursor.rest = '-' :: ' ' :: c :: cs) (hc : isSolid c = true) {opened : Lexer}
    (hopen : ({ cursor, tokens, indents } : Lexer).openBlock cursor.column tokens.length
      .blockSequenceStart = opened) :
    ∃ next, Leads lexer next ∧
      next.Settles (cursor.advance 2 (c :: cs)) (.blockEntry :: opened.tokens) opened.indents := by
  have hhead : opened.indents.head? = some cursor.column := by
    rw [← hopen]
    exact openBlock_head rfl hsettles.inside
  have hopened : opened = { cursor, tokens := opened.tokens, indents := opened.indents } := by
    rw [← hopen, openBlock]
    split <;> rfl
  let next : Lexer :=
    { cursor := cursor.advance 1 (' ' :: c :: cs)
      tokens := .blockEntry :: opened.tokens
      indents := opened.indents }
  have hentry : blockEntry? { cursor, tokens, indents } = some next := by
    have hhere : ({ cursor, tokens, indents } : Lexer).openHere? .blockSequenceStart =
        some { cursor, tokens := opened.tokens, indents := opened.indents } := by
      rw [← hopened, ← hopen]
      rfl
    have hskip : next.cursor = cursor.skip 1 := (Cursor.skip_one hrest).symm
    rw [ blockEntry?, hhere]
    simp [dropKey?, allowKey, indicator, emit, moveTo, next, ← hskip]
  have hinside : ∀ indent ∈ opened.indents.head?, indent ≤ cursor.column := by
    simp [hhead]
  refine ⟨next, .of_token? hsettles.settle hrest ((token?_dash hrest).trans hentry) ?_, ?_⟩
  · have hshorter := hsettles.shorter
    rw [hrest] at hshorter
    simp [next] at hshorter ⊢
    omega
  · refine ⟨?_, fun indent hindent => Nat.le_add_right_of_le (hinside indent hindent), ?_⟩
    · rw [settle?_spaces next 1 rfl hc (by simp [next]) (by simp [next])
        fun indent hindent => Nat.le_trans (hinside indent hindent) (Nat.le_add_right _ 2)]
      rfl
    · simp [next]

end EnumBinding.Yaml.Lexer
