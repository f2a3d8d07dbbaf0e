import EnumBinding.CommandLine.Arguments
import EnumBinding.Proofs.Text.RunLaws

/-!
# Spellings of a command line

An option may be written in several ways and stand anywhere among the
arguments. Each word of a command line fills one slot of the draft, so where no
slot is named twice the request holds what the words say, in whatever order
and spelling they say it (`request?_words`).
-/

namespace EnumBinding.CommandLine

-- ---------------------------------------------------------------------------
-- Words
-- ---------------------------------------------------------------------------

/-- A path that is read as it stands, alone and behind every spelling of an option. -/
structure Value where
  text : String
  nonempty : text ≠ ""
  notHyphen : text.toList.head? ≠ some '-'
  notEquals : text.toList.head? ≠ some '='

theorem Value.exists_cons (value : Value) :
    ∃ c cs, value.text.toList = c :: cs ∧ c ≠ '-' ∧ c ≠ '=' := by
  cases htext : value.text.toList with
  | nil => exact absurd (String.toList_eq_nil_iff.mp htext) value.nonempty
  | cons c cs =>
    have hhyphen := value.notHyphen
    have hequals := value.notEquals
    rw [htext, List.head?_cons, Ne, Option.some_inj] at hhyphen hequals
    exact ⟨c, cs, rfl, hhyphen, hequals⟩

theorem Value.isValue (value : Value) : isValue value.text = true := by
  simp [CommandLine.isValue, value.notHyphen]

def Setting.name : Setting → String
  | .config => "config"
  | .header => "header"
  | .versionHeader => "version-header"

inductive Spelling : Setting → Type
  | spaced : Spelling setting
  | equals : Spelling setting
  | short : Spelling .config
  | shortJoined : Spelling .config
  | shortEquals : Spelling .config

def Spelling.arguments {setting : Setting} (text : String) : Spelling setting → List String
  | .spaced => ["--" ++ setting.name, text]
  | .equals => ["--" ++ setting.name ++ "=" ++ text]
  | .short => ["-c", text]
  | .shortJoined => ["-c" ++ text]
  | .shortEquals => ["-c=" ++ text]

inductive Word where
  | output (value : Value)
  | set (setting : Setting) (spelling : Spelling setting) (value : Value)
  | verbose (short : Bool)

def Word.arguments : Word → List String
  | .output value => [value.text]
  | .set _ spelling value => spelling.arguments value.text
  | .verbose short => [if short then "-v" else "--verbose"]

-- ---------------------------------------------------------------------------
-- Slots
-- ---------------------------------------------------------------------------

inductive Slot where
  | output
  | setting (setting : Setting)
  | verbose
deriving DecidableEq

def Word.slot : Word → Slot
  | .output _ => .output
  | .set setting _ _ => .setting setting
  | .verbose _ => .verbose

def Word.content : Word → String
  | .output value => value.text
  | .set _ _ value => value.text
  | .verbose _ => ""

namespace Draft

def get? (draft : Draft) : Slot → Option String
  | .output => draft.output
  | .setting .config => draft.config
  | .setting .header => draft.header
  | .setting .versionHeader => draft.versionHeader
  | .verbose => if draft.verbose then some "" else none

def put (draft : Draft) (text : String) : Slot → Draft
  | .output => { draft with output := some text }
  | .setting .config => { draft with config := some text }
  | .setting .header => { draft with header := some text }
  | .setting .versionHeader => { draft with versionHeader := some text }
  | .verbose => { draft with verbose := true }

def add (draft : Draft) (word : Word) : Draft := draft.put word.content word.slot

variable {draft next : Draft} {word : Word} {words : List Word} {setting : Setting} {slot : Slot}
  {text argument : String} {rest : List String}

theorem get?_put_of_ne {other : Slot} (h : other ≠ slot) :
    (draft.put text slot).get? other = draft.get? other := by
  rcases slot with _ | ⟨_ | _ | _⟩ | _ <;> rcases other with _ | ⟨_ | _ | _⟩ | _ <;>
    first | rfl | exact absurd rfl h

theorem get?_add_self (draft : Draft) (word : Word) :
    (draft.add word).get? word.slot = some word.content := by
  cases word with
  | output => rfl
  | set setting => cases setting <;> rfl
  | verbose => rfl

theorem get?_add_of_ne (h : slot ≠ word.slot) : (draft.add word).get? slot = draft.get? slot :=
  get?_put_of_ne h

-- ---------------------------------------------------------------------------
-- One word
-- ---------------------------------------------------------------------------

theorem path?_none (h : text ≠ "") : path? none text = some (some text) := by
  simp [path?, h]

theorem setOutput?_free (hfree : draft.get? .output = none) (h : text ≠ "") :
    draft.setOutput? text = some (draft.put text .output) := by
  change draft.output = none at hfree
  simp [setOutput?, hfree, path?_none h, put]

theorem set?_free (hfree : draft.get? (.setting setting) = none) (h : text ≠ "") :
    draft.set? setting text = some (draft.put text (.setting setting)) := by
  cases setting with
  | config =>
    change draft.config = none at hfree
    simp [set?, hfree, path?_none h, put]
  | header =>
    change draft.header = none at hfree
    simp [set?, hfree, path?_none h, put]
  | versionHeader =>
    change draft.versionHeader = none at hfree
    simp [set?, hfree, path?_none h, put]

theorem setVerbose?_free (hfree : draft.get? .verbose = none) :
    draft.setVerbose? = some (draft.put "" .verbose) := by
  have hquiet : draft.verbose = false := by simpa [get?] using hfree
  simp [setVerbose?, hquiet, put]

-- What stands behind the words is read from the draft that they leave.

theorem read?_cons (h : argument ≠ "--") : draft.read? (argument :: rest) =
    match draft.argument? argument with
    | none => none
    | some (.more draft) => draft.read? rest
    | some (.done request) => some request
    | some (.value draft setting) =>
      match rest with
      | [] => none
      | path :: rest =>
        if isValue path then
          match draft.set? setting path with
          | some draft => draft.read? rest
          | none => none
        else
          none :=
  read?.eq_3 draft argument rest h

theorem ne_dashes {progress : Progress} (h : draft.argument? argument = some progress) :
    argument ≠ "--" := by
  rintro rfl
  cases h

theorem read?_more (h : draft.argument? argument = some (.more next)) :
    draft.read? (argument :: rest) = next.read? rest := by
  rw [read?_cons (ne_dashes h), h]

theorem read?_value (h : draft.argument? argument = some (.value draft setting))
    (hfree : draft.get? (.setting setting) = none) (value : Value) :
    draft.read? (argument :: value.text :: rest) =
      (draft.put value.text (.setting setting)).read? rest := by
  rw [read?_cons (ne_dashes h), h]
  simp only [value.isValue, if_true, set?_free hfree value.nonempty]

-- Long names

theorem ofLong?_name (setting : Setting) :
    Flag.ofLong? setting.name.toList = some (.setting setting) := by
  cases setting <;> rfl

theorem all_name (setting : Setting) : setting.name.toList.all (· != '=') = true := by
  cases setting <;> decide

theorem long?_name (draft : Draft) (setting : Setting) :
    draft.long? setting.name.toList = some (.value draft setting) := by
  have hall := List.all_eq_true.mp (all_name setting)
  rw [long?, List.takeWhile_eq_self_iff.mpr hall, List.dropWhile_eq_nil_iff.mpr hall, ofLong?_name]
  rfl

theorem long?_name_equals (draft : Draft) (setting : Setting) (cs : List Char) :
    draft.long? (setting.name.toList ++ '=' :: cs) =
      (draft.set? setting (String.ofList cs)).map .more := by
  have hall := all_name setting
  rw [long?, Text.takeWhile_run hall (by simp), Text.dropWhile_run hall (by simp), ofLong?_name]
  rw [Option.map_eq_bind]
  rfl

theorem argument?_spaced (draft : Draft) (setting : Setting) :
    draft.argument? ("--" ++ setting.name) = some (.value draft setting) := by
  have htext : ("--" ++ setting.name).toList = '-' :: '-' :: setting.name.toList := by simp
  simp only [argument?, htext, long?_name]

theorem argument?_equals (hfree : draft.get? (.setting setting) = none) (value : Value) :
    draft.argument? ("--" ++ setting.name ++ "=" ++ value.text) =
      some (.more (draft.put value.text (.setting setting))) := by
  have htext : ("--" ++ setting.name ++ "=" ++ value.text).toList =
      '-' :: '-' :: (setting.name.toList ++ '=' :: value.text.toList) := by simp
  simp only [argument?, htext, long?_name_equals, String.ofList_toList,
    set?_free hfree value.nonempty, Option.map_some]

-- Short names

theorem argument?_shortJoined (hfree : draft.get? (.setting .config) = none) (value : Value) :
    draft.argument? ("-c" ++ value.text) =
      some (.more (draft.put value.text (.setting .config))) := by
  obtain ⟨c, cs, hvalue, -, hequals⟩ := value.exists_cons
  have htext : ("-c" ++ value.text).toList = '-' :: 'c' :: c :: cs := by simp [hvalue]
  have hpath : String.ofList (c :: cs) = value.text := by rw [← hvalue, String.ofList_toList]
  simp [argument?, htext, cluster?, Flag.ofShort?, hequals, hpath, -String.ofList_cons,
    set?_free hfree value.nonempty]

theorem argument?_shortEquals (hfree : draft.get? (.setting .config) = none) (value : Value) :
    draft.argument? ("-c=" ++ value.text) =
      some (.more (draft.put value.text (.setting .config))) := by
  have htext : ("-c=" ++ value.text).toList = '-' :: 'c' :: '=' :: value.text.toList := by simp
  simp [argument?, htext, cluster?, Flag.ofShort?, set?_free hfree value.nonempty]

theorem argument?_output (hfree : draft.get? .output = none) (value : Value) :
    draft.argument? value.text = some (.more (draft.put value.text .output)) := by
  unfold argument?
  split
  · next heq => exact absurd (by rw [heq]; rfl) value.notHyphen
  · next heq => exact absurd (by rw [heq]; rfl) value.notHyphen
  · rw [setOutput?_free hfree value.nonempty]
    rfl

theorem argument?_verbose (hfree : draft.get? .verbose = none) (short : Bool) :
    draft.argument? (if short then "-v" else "--verbose") =
      some (.more (draft.put "" .verbose)) := by
  have hset := setVerbose?_free hfree
  cases short with
  | true => simp [argument?, cluster?, Flag.ofShort?, turn?, hset]
  | false =>
    have hname : Flag.ofLong? ['v', 'e', 'r', 'b', 'o', 's', 'e'] = some (.switch .verbose) := rfl
    simp [argument?, long?, hname, turn?, hset]

/-- A word fills its slot, and the arguments behind it are read as if it were not there. -/
theorem read?_word (hfree : draft.get? word.slot = none) (rest : List String) :
    draft.read? (word.arguments ++ rest) = (draft.add word).read? rest := by
  cases word with
  | output value => exact read?_more (argument?_output hfree value)
  | verbose short => exact read?_more (argument?_verbose hfree short)
  | set setting spelling value =>
    cases spelling with
    | spaced => exact read?_value (argument?_spaced draft setting) hfree value
    | equals => exact read?_more (argument?_equals hfree value)
    | short => exact read?_value rfl hfree value
    | shortJoined => exact read?_more (argument?_shortJoined hfree value)
    | shortEquals => exact read?_more (argument?_shortEquals hfree value)

-- ---------------------------------------------------------------------------
-- All words
-- ---------------------------------------------------------------------------

theorem read?_words (hfree : ∀ word ∈ words, draft.get? word.slot = none)
    (honce : (words.map Word.slot).Nodup) :
    draft.read? (words.flatMap Word.arguments) = (words.foldl add draft).finish? := by
  induction words generalizing draft with
  | nil => rfl
  | cons word words ih =>
    obtain ⟨hword, hwords⟩ := List.forall_mem_cons.mp hfree
    obtain ⟨hslot, honce⟩ := List.nodup_cons.mp honce
    rw [List.flatMap_cons, read?_word hword, List.foldl_cons]
    refine ih (fun other hother => ?_) honce
    rw [get?_add_of_ne fun heq => hslot (heq ▸ List.mem_map_of_mem hother)]
    exact hwords other hother

theorem get?_words_of_forall_ne (h : ∀ word ∈ words, slot ≠ word.slot) :
    (words.foldl add draft).get? slot = draft.get? slot := by
  induction words generalizing draft with
  | nil => rfl
  | cons word words ih =>
    obtain ⟨hword, hwords⟩ := List.forall_mem_cons.mp h
    rw [List.foldl_cons, ih hwords, get?_add_of_ne hword]

theorem get?_words_of_mem (honce : (words.map Word.slot).Nodup) (hword : word ∈ words) :
    (words.foldl add draft).get? word.slot = some word.content := by
  induction words generalizing draft with
  | nil => cases hword
  | cons first words ih =>
    obtain ⟨hslot, honce⟩ := List.nodup_cons.mp honce
    rcases List.mem_cons.mp hword with rfl | hword
    · have hne : ∀ other ∈ words, word.slot ≠ other.slot := fun other hother heq =>
        hslot (heq ▸ List.mem_map_of_mem hother)
      rw [List.foldl_cons, get?_words_of_forall_ne hne, get?_add_self]
    · exact ih honce hword

end Draft

-- ---------------------------------------------------------------------------
-- What the words say
-- ---------------------------------------------------------------------------

structure Values where
  output : Value
  setting : Setting → Option Value

/-- The words name these values and no others, each once. Their order is free, and so is whether
they ask for a verbose run. -/
structure Says (words : List Word) (values : Values) : Prop where
  once : (words.map Word.slot).Nodup
  output : .output values.output ∈ words
  setting : ∀ setting value, values.setting setting = some value ↔
    ∃ spelling, .set setting spelling value ∈ words

def Values.arguments (values : Values) (verbose : Bool) : Arguments where
  output := values.output.text
  config := (values.setting .config).map Value.text
  header := (values.setting .header).map Value.text
  versionHeader := (values.setting .versionHeader).map Value.text
  verbose

namespace Says

variable {words : List Word} {values : Values} {draft : Draft}

theorem get?_output (h : Says words values) :
    (words.foldl Draft.add draft).get? .output = some values.output.text :=
  Draft.get?_words_of_mem h.once h.output

theorem get?_setting (h : Says words values) (setting : Setting)
    (hfree : draft.get? (.setting setting) = none) :
    (words.foldl Draft.add draft).get? (.setting setting) =
      (values.setting setting).map Value.text := by
  cases hvalue : values.setting setting with
  | some value =>
    obtain ⟨spelling, hword⟩ := (h.setting setting value).mp hvalue
    exact Draft.get?_words_of_mem h.once hword
  | none =>
    rw [Draft.get?_words_of_forall_ne fun word hword heq => ?_, hfree]
    · rfl
    · cases word with
      | output => cases heq
      | verbose => cases heq
      | set other spelling value =>
        obtain rfl := Slot.setting.inj heq
        rw [(h.setting setting value).mpr ⟨spelling, hword⟩] at hvalue
        cases hvalue

/-- Order and spelling leave no trace in the request. -/
theorem request?_words (h : Says words values) : ∃ verbose,
    request? (words.flatMap Word.arguments) = some (.run (values.arguments verbose)) := by
  refine ⟨(words.foldl Draft.add {}).verbose, ?_⟩
  have hfree : ∀ word ∈ words, Draft.get? {} word.slot = none := by
    intro word _
    rcases word.slot with _ | ⟨_ | _ | _⟩ | _ <;> rfl
  have houtput : (words.foldl Draft.add {}).output = some values.output.text := h.get?_output
  have hconfig : (words.foldl Draft.add {}).config = _ := h.get?_setting .config rfl
  have hheader : (words.foldl Draft.add {}).header = _ := h.get?_setting .header rfl
  have hversion : (words.foldl Draft.add {}).versionHeader = _ := h.get?_setting .versionHeader rfl
  rw [request?, Draft.read?_words hfree h.once, Draft.finish?, houtput, hconfig, hheader, hversion]
  rfl

end Says
end EnumBinding.CommandLine
