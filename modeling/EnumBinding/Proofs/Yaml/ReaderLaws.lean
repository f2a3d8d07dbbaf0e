import EnumBinding.Yaml.Reader

/-!
# Nodes from their tokens

A list of tokens reads as a node if the reader gives that node for it wherever
it stands, and goes on right behind it (`Reads`). Scalars, an empty sequence,
block sequences and block mappings read as what they hold, so that a whole
document is read from the outline of its tokens.
-/

namespace EnumBinding.Yaml

variable {α : Type} {place : Place} {tokens rest : List Token} {node : Node} {handles : Handles}
  {anchors : Anchors} {fuel : Nat} {ends : Token → Bool}

/-- The tokens are those of a node. The fuel of a document is four steps for each of its tokens. -/
structure Reads (place : Place) (tokens : List Token) (node : Node) : Prop where
  head : ∃ token others, tokens = token :: others ∧ endsBlockItem token = false ∧
    endsBlockEntry token = false
  node : ∀ handles fuel anchors rest, 4 * tokens.length ≤ fuel →
    Reader.node? handles place fuel { tokens := tokens ++ rest, anchors } =
      some (node, { tokens := rest, anchors })

namespace Reader

theorem node?_scalar (place : Place) (text : List Char) (plain : Bool) :
    Reads place [.scalar text plain] (.scalar none none plain (String.ofList text)) := by
  refine ⟨⟨_, _, rfl, rfl, rfl⟩, fun handles fuel anchors rest hfuel => ?_⟩
  obtain ⟨fuel, rfl⟩ := Nat.exists_eq_succ_of_ne_zero (Nat.ne_zero_of_lt hfuel)
  simp [node?, properties, opening?]

theorem node?_emptySequence :
    Reads place [.flowSequenceStart, .flowSequenceEnd] (.sequence none []) := by
  refine ⟨⟨_, _, rfl, rfl, rfl⟩, fun handles fuel anchors rest hfuel => ?_⟩
  obtain ⟨fuel, rfl⟩ : ∃ left, fuel = left + 2 := ⟨fuel - 2, by simp at hfuel; omega⟩
  simp [node?, properties, opening?, flowItems?]

theorem optional?_reads (h : Reads place tokens node) (hfuel : 4 * tokens.length < fuel)
    (hends : ∀ token, endsBlockItem token = false → endsBlockEntry token = false →
      ends token = false) :
    optional? handles place ends fuel { tokens := tokens ++ rest, anchors } =
      some (node, { tokens := rest, anchors }) := by
  obtain ⟨fuel, rfl⟩ := Nat.exists_eq_succ_of_ne_zero (Nat.ne_zero_of_lt hfuel)
  obtain ⟨token, others, htokens, hitem, hentry⟩ := h.head
  have hhead : (tokens ++ rest).head?.any ends = false := by
    simp [htokens, hends token hitem hentry]
  rw [optional?]
  simp only [hhead, Bool.false_eq_true, ↓reduceIte]
  exact h.node handles fuel anchors rest (Nat.le_of_lt_succ hfuel)

-- ---------------------------------------------------------------------------
-- Blocks
-- ---------------------------------------------------------------------------

theorem blockItems?_reads (handles : Handles) (fuel : Nat) (anchors : Anchors) (rest : List Token)
    {items : List α} {tokensOf : α → List Token} {nodeOf : α → Node}
    (h : ∀ item ∈ items, Reads .block (tokensOf item) (nodeOf item))
    (hfuel : 4 * (items.flatMap fun item => .blockEntry :: tokensOf item).length < fuel) :
    blockItems? handles fuel
        { tokens := (items.flatMap fun item => .blockEntry :: tokensOf item) ++ .blockEnd :: rest
          anchors } =
      some (items.map nodeOf, { tokens := rest, anchors }) := by
  induction items generalizing fuel with
  | nil =>
    obtain ⟨fuel, rfl⟩ := Nat.exists_eq_succ_of_ne_zero (Nat.ne_zero_of_lt hfuel)
    simp [blockItems?]
  | cons item items ih =>
    rw [List.flatMap_cons, List.length_append, List.length_cons] at hfuel
    obtain ⟨fuel, rfl⟩ := Nat.exists_eq_succ_of_ne_zero (Nat.ne_zero_of_lt hfuel)
    obtain ⟨hitem, hitems⟩ := List.forall_mem_cons.mp h
    have hfirst (rest : List Token) : optional? handles .block endsBlockItem fuel
        { tokens := tokensOf item ++ rest, anchors } =
          some (nodeOf item, { tokens := rest, anchors }) :=
      optional?_reads hitem (by omega) fun _ hends _ => hends
    have hothers := ih fuel hitems (by omega)
    simp [blockItems?, hfirst, hothers]

theorem blockEntries?_reads (handles : Handles) (fuel : Nat) (anchors : Anchors) (rest : List Token)
    {entries : List α} {keyOf : α → List Char}
    {tokensOf : α → List Token} {nodeOf : α → Node}
    (h : ∀ entry ∈ entries, Reads .mapping (tokensOf entry) (nodeOf entry))
    (hfuel : 4 * (entries.flatMap fun entry =>
      .key :: .scalar (keyOf entry) true :: .value :: tokensOf entry).length < fuel) :
    blockEntries? handles fuel
        { tokens := (entries.flatMap fun entry =>
            .key :: .scalar (keyOf entry) true :: .value :: tokensOf entry) ++ .blockEnd :: rest
          anchors } =
      some (entries.map fun entry =>
        (.scalar none none true (String.ofList (keyOf entry)), nodeOf entry),
          { tokens := rest, anchors }) := by
  induction entries generalizing fuel with
  | nil =>
    obtain ⟨fuel, rfl⟩ := Nat.exists_eq_succ_of_ne_zero (Nat.ne_zero_of_lt hfuel)
    simp [blockEntries?]
  | cons entry entries ih =>
    rw [List.flatMap_cons, List.length_append, List.length_cons, List.length_cons,
      List.length_cons] at hfuel
    obtain ⟨fuel, rfl⟩ : ∃ left, fuel = left + 2 := ⟨fuel - 2, by omega⟩
    obtain ⟨hentry, hentries⟩ := List.forall_mem_cons.mp h
    have hkey (rest : List Token) : optional? handles .mapping endsBlockEntry (fuel + 1)
        { tokens := .scalar (keyOf entry) true :: rest, anchors } =
          some (.scalar none none true (String.ofList (keyOf entry)), { tokens := rest, anchors }) :=
      optional?_reads (node?_scalar _ (keyOf entry) true) (by rw [List.length_singleton]; omega)
        fun _ _ hends => hends
    have hvalue (rest : List Token) : optional? handles .mapping endsBlockEntry fuel
        { tokens := tokensOf entry ++ rest, anchors } =
          some (nodeOf entry, { tokens := rest, anchors }) :=
      optional?_reads hentry (by omega) fun _ _ hends => hends
    have hothers := ih (fuel + 1) hentries (by omega)
    rw [blockEntries?]
    simp [value?, hkey, hvalue, hothers]

theorem node?_items {items : List α} {tokensOf : α → List Token} {nodeOf : α → Node}
    (hplace : place ≠ .flow) (h : ∀ item ∈ items, Reads .block (tokensOf item) (nodeOf item)) :
    Reads place
      (.blockSequenceStart :: ((items.flatMap fun item => .blockEntry :: tokensOf item) ++
        [.blockEnd]))
      (.sequence none (items.map nodeOf)) := by
  refine ⟨⟨_, _, rfl, rfl, rfl⟩, fun handles fuel anchors rest hfuel => ?_⟩
  obtain ⟨fuel, rfl⟩ := Nat.exists_eq_succ_of_ne_zero (Nat.ne_zero_of_lt hfuel)
  have hitems := blockItems?_reads handles fuel anchors rest h (by simp at hfuel ⊢; omega)
  simp [node?, properties, opening?, hplace, hitems]

theorem node?_entries {entries : List α} {keyOf : α → List Char} {tokensOf : α → List Token}
    {nodeOf : α → Node} (hplace : place ≠ .flow)
    (h : ∀ entry ∈ entries, Reads .mapping (tokensOf entry) (nodeOf entry)) :
    Reads place
      (.blockMappingStart :: ((entries.flatMap fun entry =>
        .key :: .scalar (keyOf entry) true :: .value :: tokensOf entry) ++ [.blockEnd]))
      (.mapping none (entries.map fun entry =>
        (.scalar none none true (String.ofList (keyOf entry)), nodeOf entry))) := by
  refine ⟨⟨_, _, rfl, rfl, rfl⟩, fun handles fuel anchors rest hfuel => ?_⟩
  obtain ⟨fuel, rfl⟩ := Nat.exists_eq_succ_of_ne_zero (Nat.ne_zero_of_lt hfuel)
  have hlength : 4 * (entries.flatMap fun entry =>
      .key :: .scalar (keyOf entry) true :: .value :: tokensOf entry).length < fuel := by
    simp at hfuel ⊢
    omega
  have hentries := blockEntries?_reads handles fuel anchors rest h hlength
  simp [node?, properties, opening?, hplace, hentries]

end Reader

theorem document?_reads (h : Reads .block (.blockMappingStart :: tokens) node) :
    document? (.blockMappingStart :: tokens) = some (some (.ofRoot node)) := by
  have hroot := h.node defaultHandles (4 * (tokens.length + 1) + 4) [] [] (by simp)
  rw [List.append_nil] at hroot
  simp [document?, first?, root?, hroot]

end EnumBinding.Yaml
