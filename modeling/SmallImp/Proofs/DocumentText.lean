import SmallImp.Json.Writer
import SmallImp.Proofs.CodePoints
import SmallImp.Proofs.NumberText

/-!
# Documents through their text and back

A value without surrogates whose objects have each key once, and whose integers are not too long, is
read from the text that is written for it, if its lists and objects are not nested too deeply.

* `Json.Writable` — the values that can be written;
* `Json.depth` — how deep lists and objects are nested;
* `Reads` — a text that is read as a value, whatever follows it;
* `readString?_escaped` — texts in quotes;
* `read_render` — a document is read as it was written.
-/

namespace SmallImp.Json

/-! ### Values that can be written -/

mutual

/-- A value without surrogates whose objects have each key once, and whose integers are not too
long. -/
def Writable : Json → Prop
  | .null => True
  | .bool _ => True
  | .int n => n.natAbs < 10 ^ Text.maxDigits
  | .float _ => True
  | .str s => s.isPlain = true
  | .list items => AllWritable items
  | .object fields => (fields.map (·.1)).Nodup ∧ FieldsWritable fields

/-- Values, all of them writable. -/
def AllWritable : List Json → Prop
  | [] => True
  | item :: rest => Writable item ∧ AllWritable rest

/-- Fields with keys and values that can be written. -/
def FieldsWritable : List (Codes × Json) → Prop
  | [] => True
  | (key, value) :: rest => (key.isPlain = true ∧ Writable value) ∧ FieldsWritable rest

end

mutual

/-- How deep lists and objects are nested in a value. -/
def depth : Json → Nat
  | .list items => depthOfItems items + 1
  | .object fields => depthOfFields fields + 1
  | _ => 0

/-- The greatest depth of the items of a list. -/
def depthOfItems : List Json → Nat
  | [] => 0
  | item :: rest => max (depth item) (depthOfItems rest)

/-- The greatest depth of the values of fields. -/
def depthOfFields : List (Codes × Json) → Nat
  | [] => 0
  | (_, value) :: rest => max (depth value) (depthOfFields rest)

end

theorem depth_le_of_mem {item : Json} {items : List Json} (h : item ∈ items) :
    item.depth ≤ depthOfItems items := by
  induction h with
  | head rest => exact Nat.le_max_left _ _
  | tail _ _ ih => exact Nat.le_trans ih (Nat.le_max_right _ _)

theorem depth_le_of_mem_fields {field : Codes × Json} {fields : List (Codes × Json)}
    (h : field ∈ fields) : field.2.depth ≤ depthOfFields fields := by
  induction h with
  | head rest => exact Nat.le_max_left _ _
  | tail _ _ ih => exact Nat.le_trans ih (Nat.le_max_right _ _)

/-! ### Lines of a document -/

/-- The characters of a line break and of the blanks after it. -/
def lineBreak (level : Nat) : String := String.ofList ('\n' :: List.replicate (2 * level) ' ')

/-- The characters of a text in quotes. -/
def stringText (s : Codes) : String := Codes.characters (renderString s)

/-- The characters that are written for a value at a level of nesting. -/
def renderAt (level : Nat) (value : Json) : String := Codes.characters (pieces level value).flatten

/-- The lines of the items of a list. -/
def renderItems (level : Nat) (items : List Json) : List String :=
  items.map fun item => lineBreak level ++ renderAt level item

/-- The lines of the fields of an object. -/
def renderFields (level : Nat) (fields : List (Codes × Json)) : List String :=
  fields.map fun field =>
    lineBreak level ++ stringText field.1 ++ ": " ++ renderAt level field.2

/-- The text of the items of a list, or of the fields of an object. -/
def rowText (lines : List String) : List Char := (",".intercalate lines).toList

@[simp] theorem rowText_singleton (line : String) : rowText [line] = line.toList := by
  rw [rowText, String.intercalate_singleton]

@[simp] theorem rowText_cons_cons (line next : String) (rest : List String) :
    rowText (line :: next :: rest) = line.toList ++ ',' :: rowText (next :: rest) := by
  simp [rowText, String.intercalate_cons_cons]

@[simp] theorem characters_newline (level : Nat) : Codes.characters (newline level) = lineBreak level :=
  Codes.characters_ofChars _

theorem flatten_ledBy (lead : Codes) (item : Json) (parts : List Codes) :
    (ledBy lead item parts).flatten = lead ++ parts.flatten := by
  rw [ledBy]
  split <;> simp

/-- Whether the pieces of an item stand apart or not, its line is the same. -/
theorem characters_itemPieces (level : Nat) (items : List Json) : ∀ (front : Codes) (item : Json),
    (Codes.characters (itemPieces level (front ++ newline level) (item :: items)).flatten).toList =
      (Codes.characters front).toList ++ rowText (renderItems level (item :: items)) := by
  induction items with
  | nil =>
    intro front item
    simp [itemPieces, flatten_ledBy, renderItems, renderAt]
  | cons next rest ih =>
    intro front item
    have hnext := ih "," next
    rw [itemPieces, List.flatten_append, flatten_ledBy, Codes.characters_append, String.toList_append,
      hnext]
    simp [renderItems, renderAt]

theorem characters_fieldPieces (level : Nat) (fields : List (Codes × Json)) :
    ∀ (lead : List Codes) (front : Codes) (field : Codes × Json),
      lead.flatten = front ++ newline level →
        (Codes.characters (fieldPieces level lead (field :: fields)).flatten).toList =
          (Codes.characters front).toList ++ rowText (renderFields level (field :: fields)) := by
  induction fields with
  | nil =>
    intro lead front field hlead
    simp [fieldPieces, hlead, renderFields, renderAt, stringText]
  | cons next rest ih =>
    intro lead front field hlead
    have hnext := ih ["," ++ newline level] "," next (by simp)
    rw [fieldPieces, List.flatten_append, Codes.characters_append, String.toList_append, hnext]
    simp [hlead, renderFields, renderAt, stringText]

theorem renderAt_list_cons (level : Nat) (item : Json) (items : List Json) :
    (renderAt level (.list (item :: items))).toList =
      '[' :: (rowText (renderItems (level + 1) (item :: items)) ++
        ((lineBreak level).toList ++ [']'])) := by
  have hitems := characters_itemPieces (level + 1) items "[" item
  rw [renderAt, pieces, List.flatten_append, Codes.characters_append, String.toList_append, hitems]
  simp

theorem renderAt_object_cons (level : Nat) (field : Codes × Json) (fields : List (Codes × Json)) :
    (renderAt level (.object (field :: fields))).toList =
      '\x7b' :: (rowText (renderFields (level + 1) (field :: fields)) ++
        ((lineBreak level).toList ++ ['\x7d'])) := by
  have hfields := characters_fieldPieces (level + 1) fields ["\x7b", newline (level + 1)] "\x7b" field
    (by simp)
  rw [renderAt, pieces, List.flatten_append, Codes.characters_append, String.toList_append, hfields]
  simp

/-! ### Texts in quotes -/

/-- The escape of a control character. -/
theorem unicodeEscape?_hex {c : Char} (hc : c.toNat < 0x20) (rest : List Char) :
    unicodeEscape? (Text.hex 4 c.toNat ++ rest) = some (.char c, rest) := by
  have hfour : ∀ n < 0x20, fourHex? (Text.hex 4 n ++ rest) = some (n, rest) := by
    intro n hn
    interval_cases n <;> rfl
  have hhigh : isHighSurrogate c.toNat = false := by
    simp [isHighSurrogate]
    omega
  have hunit : Code.ofNat c.toNat = .char c := Code.ofNat_toNat (.char c)
  rw [unicodeEscape?, hfour c.toNat hc]
  split
  next heq => cases heq
  next rest' heq =>
    cases heq
    simp [hhigh, hunit]
  next heq =>
    cases heq
    rw [hunit]

/-- One escaped character takes one step. -/
theorem stringBody_escapeChar (fuel : Nat) (done : Codes) (c : Char) (rest : List Char) :
    stringBody (fuel + 1) done (escapeChar c ++ rest) = stringBody fuel (.char c :: done) rest := by
  unfold escapeChar
  split_ifs with hmark hbreak hreturn htab hback hfeed hcontrol
  · rcases hmark with rfl | rfl <;> rfl
  · subst hbreak
    rfl
  · subst hreturn
    rfl
  · subst htab
    rfl
  · subst hback
    rfl
  · subst hfeed
    rfl
  · have hescape := unicodeEscape?_hex hcontrol rest
    simp [stringBody, hescape]
  · rw [not_or] at hmark
    simp [stringBody, hmark, hcontrol]

theorem escapeChar_length_pos (c : Char) : 0 < (escapeChar c).length := by
  unfold escapeChar
  split_ifs <;> simp

/-- **A text in quotes is read as it was.** -/
theorem readString?_escaped (s : String) (rest : List Char) :
    readString? (s.toList.flatMap escapeChar ++ '"' :: rest) = some (↑s, rest) := by
  have hbody : ∀ (cs : List Char) (fuel : Nat) (done : Codes),
      (cs.flatMap escapeChar).length < fuel →
        stringBody fuel done (cs.flatMap escapeChar ++ '"' :: rest) =
          some (done.reverse ++ Codes.ofChars cs, rest) := by
    intro cs
    induction cs with
    | nil =>
      intro fuel done hfuel
      obtain ⟨fuel, rfl⟩ := Nat.exists_eq_succ_of_ne_zero (Nat.ne_zero_of_lt hfuel)
      simp [stringBody, Codes.ofChars]
    | cons c cs ih =>
      intro fuel done hfuel
      obtain ⟨fuel, rfl⟩ := Nat.exists_eq_succ_of_ne_zero (Nat.ne_zero_of_lt hfuel)
      have hstep := escapeChar_length_pos c
      rw [List.flatMap_cons, List.length_append] at hfuel
      rw [List.flatMap_cons, List.append_assoc, stringBody_escapeChar,
        ih fuel (.char c :: done) (by omega)]
      simp [Codes.ofChars]
  have hfuel : (s.toList.flatMap escapeChar).length <
      (s.toList.flatMap escapeChar ++ '"' :: rest).length + 1 := by
    rw [List.length_append]
    omega
  rw [readString?, hbody s.toList _ [] hfuel, List.reverse_nil, List.nil_append, Codes.ofString]

/-! ### Blanks -/

theorem skipBlank_cons {c : Char} (hc : isBlank c = false) (rest : List Char) :
    skipBlank (c :: rest) = c :: rest := by
  rw [skipBlank, List.dropWhile_cons_of_neg (by simp [hc])]

/-- A line break and the blanks after it are passed over. -/
theorem skipBlank_lineBreak (level : Nat) (rest : List Char) :
    skipBlank ((lineBreak level).toList ++ rest) = skipBlank rest := by
  have hblank : ∀ c ∈ (lineBreak level).toList, isBlank c = true := by
    intro c hc
    rw [lineBreak, String.toList_ofList, List.mem_cons] at hc
    rcases hc with rfl | hc
    · rfl
    · rw [List.eq_of_mem_replicate hc]
      rfl
  rw [skipBlank, List.dropWhile_append_of_pos hblank, skipBlank]

theorem lineBreak_length_pos (level : Nat) : 0 < (lineBreak level).toList.length := by
  rw [lineBreak, String.toList_ofList]
  exact Nat.succ_pos _

theorem lineBreak_follows (level : Nat) (rest : List Char) :
    Follows ((lineBreak level).toList ++ rest) := by
  intro c hc
  rw [lineBreak, String.toList_ofList] at hc
  exact .inr (Option.some.inj hc).symm

/-! ### Texts of values -/

/-- A text that is read as a value, whatever follows it, when there is a step for each of its
characters and room for its depth. -/
structure Reads (text : List Char) (value : Json) : Prop where
  starts : ∃ c tail, text = c :: tail ∧ isBlank c = false ∧ c ≠ ']'
  reads : ∀ {fuel room : Nat} {rest : List Char}, text.length ≤ fuel → value.depth ≤ room →
    Follows rest → readValue fuel room (text ++ rest) = .ok (value, rest)

/-- A value that is neither a text, a list nor an object. -/
theorem Reads.atom {text : List Char} {value : Json} (hinner : ∀ c ∈ text, Inner c)
    (h : ∀ {rest : List Char}, Follows rest → readAtom (text ++ rest) = .ok (value, rest)) :
    Reads text value := by
  cases text with
  | nil =>
    have hempty : readAtom ([] ++ []) = .ok (value, []) := h (by simp [Follows])
    cases hempty
  | cons c tail =>
    obtain ⟨hblank, hplain⟩ := hinner c (.head _)
    simp only [List.mem_cons, List.not_mem_nil, or_false, not_or] at hplain
    obtain ⟨hquote, hbracket, hclose, hbrace⟩ := hplain
    refine ⟨⟨c, tail, rfl, hblank, hclose⟩, ?_⟩
    intro fuel room rest hfuel _ hrest
    cases fuel with
    | zero => simp at hfuel
    | succ fuel =>
      have hatom := h hrest
      rw [List.cons_append] at hatom ⊢
      simp [readValue, hquote, hbracket, hbrace, hatom]

theorem Reads.null : Reads "null".toList .null :=
  .atom (by simp [Inner, isBlank]) fun _ => rfl

theorem Reads.bool (b : Bool) : Reads (if b then "true" else "false").toList (.bool b) := by
  cases b with
  | true => exact .atom (by simp [Inner, isBlank]) fun _ => rfl
  | false => exact .atom (by simp [Inner, isBlank]) fun _ => rfl

theorem Reads.int {n : Int} (hn : n.natAbs < 10 ^ Text.maxDigits) :
    Reads (toString n).toList (.int n) :=
  .atom (int_inner n) (readAtom_int hn)

theorem Reads.float (x : Float) :
    Reads (Decimal.plainText Decimal.documentWords x).toList (.float x) :=
  .atom (float_inner x) (readAtom_float x)

theorem stringText_toList (s : Codes) :
    (stringText s).toList = '"' :: ((Codes.characters s).toList.flatMap escapeChar ++ ['"']) := by
  have hbody : ∀ t : Codes,
      (t.flatMap escapeCode).filterMap Code.char? = (t.filterMap Code.char?).flatMap escapeChar := by
    intro t
    induction t with
    | nil => rfl
    | cons code rest ih =>
      cases code with
      | char c =>
        rw [List.flatMap_cons, List.filterMap_append, ih, escapeCode, Codes.filterMap_ofChars]
        rfl
      | surrogate half => exact ih
  rw [stringText, renderString, Codes.characters, Codes.characters, String.toList_ofList,
    String.toList_ofList, ← hbody, List.cons_append, List.filterMap_cons, List.filterMap_append]
  rfl

theorem readString?_stringText {s : Codes} (hs : s.isPlain = true) (rest : List Char) :
    readString? ((Codes.characters s).toList.flatMap escapeChar ++ '"' :: rest) = some (s, rest) := by
  rw [readString?_escaped, Codes.ofString_characters hs]

theorem Reads.str {s : Codes} (hs : s.isPlain = true) : Reads (stringText s).toList (.str s) := by
  rw [stringText_toList]
  refine ⟨⟨_, _, rfl, rfl, by decide⟩, ?_⟩
  intro fuel room rest hfuel _ _
  cases fuel with
  | zero => simp at hfuel
  | succ fuel =>
    have hread := readString?_stringText hs rest
    simp [readValue, hread]

/-! ### Lists -/

theorem Reads.skipBlank_eq {text : List Char} {value : Json} (h : Reads text value) (level : Nat)
    (rest : List Char) : skipBlank ((lineBreak level).toList ++ (text ++ rest)) = text ++ rest := by
  obtain ⟨c, tail, rfl, hblank, -⟩ := h.starts
  rw [skipBlank_lineBreak, List.cons_append, skipBlank_cons hblank]

theorem renderItems_cons (level : Nat) (item : Json) (items : List Json) :
    renderItems level (item :: items) =
      (lineBreak level ++ renderAt level item) :: renderItems level items := rfl

/-- The items of a list, from one of them on to the bracket that closes it. -/
theorem readItems_render (level outer room : Nat) {items : List Json} (rest : List Char) :
    ∀ {item : Json} {fuel : Nat} (done : List Json),
      (∀ next ∈ item :: items, Reads (renderAt level next).toList next ∧ next.depth ≤ room) →
      (rowText (renderItems level (item :: items))).length ≤ fuel →
        readItems fuel room done (skipBlank (rowText (renderItems level (item :: items)) ++
          ((lineBreak outer).toList ++ ']' :: rest))) =
            .ok (.list (done.reverse ++ item :: items), rest) := by
  have hline := lineBreak_length_pos level
  induction items with
  | nil =>
    intro item fuel done hitems hfuel
    obtain ⟨hitem, hdepth⟩ := hitems item (.head _)
    rw [renderItems_cons, show renderItems level [] = [] from rfl, rowText_singleton] at hfuel ⊢
    simp only [String.toList_append, List.append_assoc, List.length_append] at hfuel ⊢
    obtain ⟨fuel, rfl⟩ := Nat.exists_eq_add_of_le' (show 1 ≤ fuel by omega)
    have hclose : skipBlank ((lineBreak outer).toList ++ ']' :: rest) = ']' :: rest := by
      rw [skipBlank_lineBreak, skipBlank_cons rfl]
    rw [hitem.skipBlank_eq, readItems, hitem.reads (by omega) hdepth (lineBreak_follows outer _)]
    simp [hclose]
  | cons next items ih =>
    intro item fuel done hitems hfuel
    obtain ⟨⟨hitem, hdepth⟩, hothers⟩ := List.forall_mem_cons.mp hitems
    rw [renderItems_cons, renderItems_cons, rowText_cons_cons, ← renderItems_cons] at hfuel ⊢
    simp only [String.toList_append, List.append_assoc, List.length_append, List.length_cons,
      List.cons_append] at hfuel ⊢
    obtain ⟨fuel, rfl⟩ := Nat.exists_eq_add_of_le' (show 1 ≤ fuel by omega)
    have hmore := ih (item :: done) hothers (show _ ≤ fuel by omega)
    rw [hitem.skipBlank_eq, readItems, hitem.reads (by omega) hdepth (by simp [Follows])]
    simp [skipBlank_cons (c := ',') rfl, hmore]

/-- The first line of a row starts with its value. -/
theorem skipBlank_rowText {text : String} {value : Json} (h : Reads text.toList value) (level : Nat)
    (lines : List String) (rest : List Char) :
    ∃ tail, skipBlank (rowText ((lineBreak level ++ text) :: lines) ++ rest) = text.toList ++ tail := by
  cases lines with
  | nil =>
    refine ⟨rest, ?_⟩
    rw [rowText_singleton, String.toList_append, List.append_assoc, h.skipBlank_eq]
  | cons line lines =>
    refine ⟨',' :: rowText (line :: lines) ++ rest, ?_⟩
    rw [rowText_cons_cons, String.toList_append, List.append_assoc, List.append_assoc, h.skipBlank_eq]

theorem Reads.list {level : Nat} {items : List Json}
    (h : ∀ item ∈ items, Reads (renderAt (level + 1) item).toList item) :
    Reads (renderAt level (.list items)).toList (.list items) := by
  cases items with
  | nil =>
    have htext : (renderAt level (.list [])).toList = ['[', ']'] := by simp [renderAt, pieces]
    rw [htext]
    refine ⟨⟨'[', _, rfl, rfl, by decide⟩, ?_⟩
    intro fuel room rest hfuel hroom _
    obtain ⟨fuel, rfl⟩ := Nat.exists_eq_add_of_le' (Nat.le_of_succ_le hfuel)
    obtain ⟨room, rfl⟩ := Nat.exists_eq_add_of_le' (show 1 ≤ room from hroom)
    rfl
  | cons item items =>
    obtain ⟨hitem, -⟩ := List.forall_mem_cons.mp h
    rw [renderAt_list_cons]
    refine ⟨⟨'[', _, rfl, rfl, by decide⟩, ?_⟩
    intro fuel room rest hfuel hroom _
    simp only [List.length_cons, List.length_append] at hfuel
    rw [depth] at hroom
    obtain ⟨fuel, rfl⟩ := Nat.exists_eq_add_of_le' (show 1 ≤ fuel by omega)
    obtain ⟨room, rfl⟩ := Nat.exists_eq_add_of_le' (show 1 ≤ room by omega)
    have hitems : ∀ next ∈ item :: items,
        Reads (renderAt (level + 1) next).toList next ∧ next.depth ≤ room := by
      intro next hnext
      exact ⟨h next hnext, Nat.le_trans (depth_le_of_mem hnext) (by omega)⟩
    have hread := readItems_render (level + 1) level room rest [] hitems (show _ ≤ fuel by omega)
    obtain ⟨c, tail, hc, -, hclose⟩ := hitem.starts
    obtain ⟨more, hskip⟩ := skipBlank_rowText hitem (level + 1) (renderItems (level + 1) items)
      ((lineBreak level).toList ++ ']' :: rest)
    rw [← renderItems_cons, hc, List.cons_append] at hskip
    rw [hskip] at hread
    simp only [List.cons_append, List.append_assoc, List.nil_append]
    rw [readValue, hskip]
    simp [hclose, hread]

/-! ### Objects -/

theorem setField_of_notMem {fields : List (Codes × Json)} {key : Codes} (value : Json)
    (h : key ∉ fields.map (·.1)) : setField fields key value = fields ++ [(key, value)] := by
  induction fields with
  | nil => rfl
  | cons field rest ih =>
    rw [List.map_cons, List.mem_cons, not_or] at h
    have hne : (field.1 == key) = false := by simpa using Ne.symm h.1
    rw [setField, hne, ih h.2]
    rfl

theorem notMem_of_nodup {done fields : List (Codes × Json)} {key : Codes} {value : Json}
    (h : ((done ++ (key, value) :: fields).map (·.1)).Nodup) : key ∉ done.map (·.1) := by
  rw [List.map_append, List.nodup_append] at h
  intro hkey
  exact h.2.2 key hkey key (.head _) rfl

/-- The text of a field after its line break. -/
def fieldText (level : Nat) (key : Codes) (value : Json) : List Char :=
  '"' :: ((Codes.characters key).toList.flatMap escapeChar ++
    '"' :: ':' :: ' ' :: (renderAt level value).toList)

theorem renderFields_cons (level : Nat) (key : Codes) (value : Json) (rest : List (Codes × Json)) :
    renderFields level ((key, value) :: rest) =
      (lineBreak level ++ String.ofList (fieldText level key value)) :: renderFields level rest := by
  have hline : lineBreak level ++ stringText key ++ ": " ++ renderAt level value =
      lineBreak level ++ String.ofList (fieldText level key value) := by
    rw [← String.toList_inj]
    simp [fieldText, stringText_toList]
  rw [renderFields, List.map_cons, hline, renderFields]

theorem skipBlank_fieldText (level : Nat) (key : Codes) (value : Json) (rest : List Char) :
    skipBlank ((lineBreak level ++ String.ofList (fieldText level key value)).toList ++ rest) =
      fieldText level key value ++ rest := by
  rw [String.toList_append, String.toList_ofList, List.append_assoc, skipBlank_lineBreak, fieldText,
    List.cons_append, skipBlank_cons rfl]

/-- The first line of the fields of an object starts with a quote. -/
theorem skipBlank_fields (level : Nat) (key : Codes) (value : Json) (fields : List (Codes × Json))
    (rest : List Char) :
    ∃ more, skipBlank (rowText (renderFields level ((key, value) :: fields)) ++ rest) =
      '"' :: more := by
  rw [renderFields_cons]
  cases renderFields level fields with
  | nil =>
    rw [rowText_singleton, skipBlank_fieldText]
    exact ⟨_, rfl⟩
  | cons line lines =>
    rw [rowText_cons_cons, List.append_assoc, skipBlank_fieldText]
    exact ⟨_, rfl⟩

/-- A field whose text can be read where there is room for some levels. -/
structure FieldReads (level room : Nat) (field : Codes × Json) : Prop where
  key : field.1.isPlain = true
  value : Reads (renderAt level field.2).toList field.2
  depth : field.2.depth ≤ room

/-- One field is read, and a comma or the closing brace after it. -/
theorem readFields_field {level room : Nat} {key : Codes} {value : Json}
    (hfield : FieldReads level room (key, value)) {fuel : Nat}
    (hfuel : (renderAt level value).toList.length ≤ fuel) (done : List (Codes × Json))
    {tail : List Char} (htail : Follows tail) (rest : List Char) :
    (skipBlank tail = ',' :: rest →
      readFields (fuel + 1) room done (fieldText level key value ++ tail) =
        readFields fuel room (setField done key value) (skipBlank rest)) ∧
    (skipBlank tail = '\x7d' :: rest →
      readFields (fuel + 1) room done (fieldText level key value ++ tail) =
        .ok (.object (setField done key value), rest)) := by
  have hkey := readString?_stringText hfield.key
    (':' :: ' ' :: ((renderAt level value).toList ++ tail))
  have hcolon := skipBlank_cons (c := ':') rfl (' ' :: ((renderAt level value).toList ++ tail))
  have hblank : skipBlank (' ' :: ((renderAt level value).toList ++ tail)) =
      (renderAt level value).toList ++ tail := by
    obtain ⟨c, more, htext, hc, -⟩ := hfield.value.starts
    rw [htext, skipBlank, List.dropWhile_cons_of_pos rfl, List.cons_append]
    exact skipBlank_cons hc _
  have hread := hfield.value.reads hfuel hfield.depth htail
  constructor
  · intro hcomma
    simp [fieldText, readFields, hkey, hcolon, hblank, hread, hcomma]
  · intro hbrace
    simp [fieldText, readFields, hkey, hcolon, hblank, hread, hbrace]

/-- The fields of an object, from one of them on to the brace that closes it. -/
theorem readFields_render (level outer room : Nat) {fields : List (Codes × Json)}
    (rest : List Char) :
    ∀ {key : Codes} {value : Json} {fuel : Nat} (done : List (Codes × Json)),
      (∀ field ∈ (key, value) :: fields, FieldReads level room field) →
      ((done ++ (key, value) :: fields).map (·.1)).Nodup →
      (rowText (renderFields level ((key, value) :: fields))).length ≤ fuel →
        readFields fuel room done (skipBlank (rowText (renderFields level ((key, value) :: fields)) ++
          ((lineBreak outer).toList ++ '\x7d' :: rest))) =
            .ok (.object (done ++ (key, value) :: fields), rest) := by
  have hline := lineBreak_length_pos level
  have hlength : ∀ key value, (renderAt level value).toList.length ≤
      (fieldText level key value).length := by
    intro key value
    simp only [fieldText, List.length_cons, List.length_append]
    omega
  induction fields with
  | nil =>
    intro key value fuel done hfields hkeys hfuel
    have hfield := hfields (key, value) (.head _)
    have hnew := notMem_of_nodup hkeys
    have hclose : skipBlank ((lineBreak outer).toList ++ '\x7d' :: rest) = '\x7d' :: rest := by
      rw [skipBlank_lineBreak, skipBlank_cons rfl]
    rw [renderFields_cons, show renderFields level [] = [] from rfl, rowText_singleton] at hfuel ⊢
    rw [String.toList_append, String.toList_ofList, List.length_append] at hfuel
    have hkey := hlength key value
    obtain ⟨fuel, rfl⟩ := Nat.exists_eq_add_of_le' (show 1 ≤ fuel by omega)
    rw [skipBlank_fieldText,
      (readFields_field hfield (by omega) done (lineBreak_follows outer _) rest).2 hclose,
      setField_of_notMem value hnew]
  | cons next fields ih =>
    intro key value fuel done hfields hkeys hfuel
    obtain ⟨nextKey, nextValue⟩ := next
    obtain ⟨hfield, hothers⟩ := List.forall_mem_cons.mp hfields
    have hnew := notMem_of_nodup hkeys
    rw [renderFields_cons, renderFields_cons, rowText_cons_cons, ← renderFields_cons] at hfuel ⊢
    simp only [String.toList_append, String.toList_ofList, List.length_append, List.length_cons] at hfuel
    have hkey := hlength key value
    obtain ⟨fuel, rfl⟩ := Nat.exists_eq_add_of_le' (show 1 ≤ fuel by omega)
    have hmore := ih (done ++ [(key, value)]) hothers (by simpa using hkeys)
      (show _ ≤ fuel by omega)
    rw [List.append_assoc, skipBlank_fieldText,
      (readFields_field hfield (by omega) done (by simp [Follows]) _).1
        (by rw [List.cons_append]; exact skipBlank_cons rfl _),
      setField_of_notMem value hnew, hmore]
    simp

theorem Reads.object {level : Nat} {fields : List (Codes × Json)}
    (hkeys : (fields.map (·.1)).Nodup)
    (h : ∀ field ∈ fields, field.1.isPlain = true ∧
      Reads (renderAt (level + 1) field.2).toList field.2) :
    Reads (renderAt level (.object fields)).toList (.object fields) := by
  cases fields with
  | nil =>
    have htext : (renderAt level (.object [])).toList = ['\x7b', '\x7d'] := by simp [renderAt, pieces]
    rw [htext]
    refine ⟨⟨'\x7b', _, rfl, rfl, by decide⟩, ?_⟩
    intro fuel room rest hfuel hroom _
    obtain ⟨fuel, rfl⟩ := Nat.exists_eq_add_of_le' (Nat.le_of_succ_le hfuel)
    obtain ⟨room, rfl⟩ := Nat.exists_eq_add_of_le' (show 1 ≤ room from hroom)
    rfl
  | cons field fields =>
    obtain ⟨key, value⟩ := field
    rw [renderAt_object_cons]
    refine ⟨⟨'\x7b', _, rfl, rfl, by decide⟩, ?_⟩
    intro fuel room rest hfuel hroom _
    simp only [List.length_cons, List.length_append] at hfuel
    rw [depth] at hroom
    obtain ⟨fuel, rfl⟩ := Nat.exists_eq_add_of_le' (show 1 ≤ fuel by omega)
    obtain ⟨room, rfl⟩ := Nat.exists_eq_add_of_le' (show 1 ≤ room by omega)
    have hfields : ∀ field ∈ (key, value) :: fields, FieldReads (level + 1) room field := by
      intro field hfield
      obtain ⟨hplain, hreads⟩ := h field hfield
      exact ⟨hplain, hreads, Nat.le_trans (depth_le_of_mem_fields hfield) (by omega)⟩
    have hread := readFields_render (level + 1) level room rest [] hfields hkeys
      (show _ ≤ fuel by omega)
    obtain ⟨more, hskip⟩ := skipBlank_fields (level + 1) key value fields
      ((lineBreak level).toList ++ '\x7d' :: rest)
    rw [hskip] at hread
    simp only [List.cons_append, List.append_assoc, List.nil_append]
    rw [readValue, hskip]
    simp [hread]

/-! ### Whole documents -/

theorem renderAt_atom {level : Nat} {value : Json} {text : Codes} (h : pieces level value = [text]) :
    renderAt level value = Codes.characters text := by
  rw [renderAt, h, List.flatten_singleton]

mutual

/-- The text of a value at any level is read as the value. -/
theorem reads_renderAt : ∀ (value : Json) (level : Nat), value.Writable →
    Reads (renderAt level value).toList value
  | .null, level, _ => by
    rw [renderAt_atom (by rw [pieces]), Codes.characters_ofString]
    exact .null
  | .bool b, level, _ => by
    rw [renderAt_atom (by rw [pieces])]
    cases b with
    | false => exact .bool false
    | true => exact .bool true
  | .int n, level, h => by
    rw [renderAt_atom (by rw [pieces]), Codes.characters_ofString]
    exact .int h
  | .float x, level, _ => by
    rw [renderAt_atom (by rw [pieces]), Codes.characters_ofString]
    exact .float x
  | .str s, level, h => by
    rw [renderAt_atom (by rw [pieces])]
    exact .str h
  | .list items, level, h => .list (reads_renderItems items (level + 1) h)
  | .object fields, level, h => .object h.1 (reads_renderFields fields (level + 1) h.2)

theorem reads_renderItems : ∀ (items : List Json) (level : Nat), AllWritable items →
    ∀ item ∈ items, Reads (renderAt level item).toList item
  | [], _, _ => by simp
  | item :: rest, level, h => List.forall_mem_cons.mpr
    ⟨reads_renderAt item level h.1, reads_renderItems rest level h.2⟩

theorem reads_renderFields : ∀ (fields : List (Codes × Json)) (level : Nat), FieldsWritable fields →
    ∀ field ∈ fields, field.1.isPlain = true ∧ Reads (renderAt level field.2).toList field.2
  | [], _, _ => by simp
  | (_, value) :: rest, level, h => List.forall_mem_cons.mpr
    ⟨⟨h.1.1, reads_renderAt value level h.1.2⟩, reads_renderFields rest level h.2⟩

end

/-- **A document is read as it was written.** -/
theorem read_render [Host] {value : Json} (h : value.Writable) (hdepth : value.depth ≤ Host.nesting) :
    read (Codes.characters value.render) = .ok value := by
  have hreads := reads_renderAt value 0 h
  obtain ⟨c, tail, htext, hblank, -⟩ := hreads.starts
  have htext' : (Codes.characters value.render).toList = (renderAt 0 value).toList := rfl
  have hskip : skipBlank (Codes.characters value.render).toList = (renderAt 0 value).toList := by
    rw [htext', htext, skipBlank_cons hblank]
  have hvalue : readValue (2 * (renderAt 0 value).toList.length + 1) Host.nesting
      ((renderAt 0 value).toList ++ []) = .ok (value, []) :=
    hreads.reads (by omega) hdepth (by simp [Follows])
  rw [List.append_nil] at hvalue
  simp only [read, hskip, hvalue]
  rfl

/-! ### Line breaks -/

theorem return_not_mem_escapeChar (c : Char) : '\r' ∉ escapeChar c := by
  unfold escapeChar
  split_ifs with hmark hbreak hreturn htab hback hfeed hcontrol
  · rcases hmark with rfl | rfl <;> decide
  · decide
  · decide
  · decide
  · decide
  · decide
  · have hhex : ∀ n < 0x20, '\r' ∉ '\\' :: 'u' :: Text.hex 4 n := by decide
    exact hhex c.toNat hcontrol
  · simpa using Ne.symm hreturn

theorem return_not_mem_stringText (s : Codes) : '\r' ∉ (stringText s).toList := by
  rw [stringText_toList]
  simp [return_not_mem_escapeChar]

theorem return_not_mem_lineBreak (level : Nat) : '\r' ∉ (lineBreak level).toList := by
  simp [lineBreak]

theorem return_not_mem_of_inner {text : List Char} (h : ∀ c ∈ text, Inner c) : '\r' ∉ text := by
  intro hmem
  cases (h _ hmem).1

theorem return_not_mem_rowText {lines : List String} (h : ∀ line ∈ lines, '\r' ∉ line.toList) :
    '\r' ∉ rowText lines := by
  induction lines with
  | nil => simp [rowText]
  | cons line rest ih =>
    obtain ⟨hline, hrest⟩ := List.forall_mem_cons.mp h
    cases rest with
    | nil => simpa using hline
    | cons next rest => simpa using ⟨hline, ih hrest⟩

mutual

/-- The only line breaks in the text of a document are line feeds. -/
theorem return_not_mem_renderAt : ∀ (value : Json) (level : Nat),
    '\r' ∉ (renderAt level value).toList
  | .null, _ => by
    rw [renderAt_atom (by rw [pieces]), Codes.characters_ofString]
    decide
  | .bool b, _ => by
    rw [renderAt_atom (by rw [pieces])]
    cases b <;> decide
  | .int n, _ => by
    rw [renderAt_atom (by rw [pieces]), Codes.characters_ofString]
    exact return_not_mem_of_inner (int_inner n)
  | .float x, _ => by
    rw [renderAt_atom (by rw [pieces]), Codes.characters_ofString]
    exact return_not_mem_of_inner (float_inner x)
  | .str s, _ => by
    rw [renderAt_atom (by rw [pieces])]
    exact return_not_mem_stringText s
  | .list [], _ => by
    rw [renderAt_atom (by rw [pieces]), Codes.characters_ofString]
    decide
  | .list (item :: rest), level => by
    have hrow := return_not_mem_rowText (return_not_mem_renderItems (item :: rest) (level + 1))
    rw [renderAt_list_cons]
    simp [hrow, return_not_mem_lineBreak]
  | .object [], _ => by
    rw [renderAt_atom (by rw [pieces]), Codes.characters_ofString]
    decide
  | .object (field :: rest), level => by
    have hrow := return_not_mem_rowText (return_not_mem_renderFields (field :: rest) (level + 1))
    rw [renderAt_object_cons]
    simp [hrow, return_not_mem_lineBreak]

theorem return_not_mem_renderItems : ∀ (items : List Json) (level : Nat),
    ∀ line ∈ renderItems level items, '\r' ∉ line.toList
  | [], _ => by simp [renderItems]
  | item :: rest, level => by
    rw [renderItems_cons, List.forall_mem_cons]
    refine ⟨?_, return_not_mem_renderItems rest level⟩
    simp [return_not_mem_lineBreak, return_not_mem_renderAt item level]

theorem return_not_mem_renderFields : ∀ (fields : List (Codes × Json)) (level : Nat),
    ∀ line ∈ renderFields level fields, '\r' ∉ line.toList
  | [], _ => by simp [renderFields]
  | (key, value) :: rest, level => by
    rw [renderFields, List.map_cons, ← renderFields, List.forall_mem_cons]
    refine ⟨?_, return_not_mem_renderFields rest level⟩
    simp [return_not_mem_lineBreak, return_not_mem_stringText, return_not_mem_renderAt value level]

end

/-! ### Documents that can be encoded -/

theorem isPlain_renderString {s : Codes} (h : s.isPlain = true) : (renderString s).isPlain = true := by
  obtain ⟨s, rfl⟩ := Codes.isPlain_iff.mp h
  have hbody : ∀ cs : List Char,
      Codes.isPlain ((Codes.ofChars cs).flatMap escapeCode) = true := by
    intro cs
    induction cs with
    | nil => rfl
    | cons c rest ih =>
      show Codes.isPlain (Codes.ofChars (escapeChar c) ++ (Codes.ofChars rest).flatMap escapeCode) =
        true
      simp [ih]
  show Codes.isPlain (Codes.ofString "\"" ++ ((Codes.ofChars s.toList).flatMap escapeCode ++
    Codes.ofString "\"")) = true
  simp [hbody]

theorem isPlain_newline (level : Nat) : (newline level).isPlain = true := Codes.isPlain_ofChars _

theorem isPlain_flatten {parts : List Codes} (h : ∀ part ∈ parts, part.isPlain = true) :
    Codes.isPlain parts.flatten = true := by
  induction parts with
  | nil => rfl
  | cons part rest ih =>
    obtain ⟨hpart, hrest⟩ := List.forall_mem_cons.mp h
    rw [List.flatten_cons, Codes.isPlain_append, hpart, ih hrest]
    rfl

theorem isPlain_ledBy {lead : Codes} {item : Json} {parts : List Codes} (hlead : lead.isPlain = true)
    (h : ∀ part ∈ parts, part.isPlain = true) : ∀ part ∈ ledBy lead item parts, part.isPlain = true := by
  rw [ledBy]
  split
  · simp [hlead, isPlain_flatten h]
  · simpa [hlead] using h

mutual

/-- Every piece of a value that can be written can be encoded. -/
theorem isPlain_pieces : ∀ (value : Json) (level : Nat), value.Writable →
    ∀ piece ∈ pieces level value, piece.isPlain = true
  | .null, _, _ => by simp [pieces]
  | .bool b, _, _ => by cases b <;> simp [pieces]
  | .int n, _, _ => by simp [pieces]
  | .float x, _, _ => by simp [pieces]
  | .str s, _, h => by simpa [pieces] using isPlain_renderString h
  | .list [], _, _ => by simp [pieces]
  | .list (item :: rest), level, h => by
    rw [pieces, List.forall_mem_append]
    exact ⟨isPlain_itemPieces (item :: rest) (level + 1) (by simp [isPlain_newline]) h,
      by simp [isPlain_newline]⟩
  | .object [], _, _ => by simp [pieces]
  | .object (field :: rest), level, h => by
    rw [pieces, List.forall_mem_append]
    exact ⟨isPlain_fieldPieces (field :: rest) (level + 1) (by simp [isPlain_newline]) h.2,
      by simp [isPlain_newline]⟩

theorem isPlain_itemPieces : ∀ (items : List Json) (level : Nat) {lead : Codes},
    lead.isPlain = true → AllWritable items →
      ∀ piece ∈ itemPieces level lead items, piece.isPlain = true
  | [], _, _, _, _ => by simp [itemPieces]
  | item :: rest, level, lead, hlead, h => by
    rw [itemPieces, List.forall_mem_append]
    exact ⟨isPlain_ledBy hlead (isPlain_pieces item level h.1),
      isPlain_itemPieces rest level (by simp [isPlain_newline]) h.2⟩

theorem isPlain_fieldPieces : ∀ (fields : List (Codes × Json)) (level : Nat) {lead : List Codes},
    (∀ piece ∈ lead, piece.isPlain = true) → FieldsWritable fields →
      ∀ piece ∈ fieldPieces level lead fields, piece.isPlain = true
  | [], _, _, _, _ => by simp [fieldPieces]
  | (key, value) :: rest, level, lead, hlead, h => by
    rw [fieldPieces, List.forall_mem_append, List.forall_mem_append, List.forall_mem_cons,
      List.forall_mem_cons]
    exact ⟨⟨hlead, isPlain_renderString h.1.1, by simp, isPlain_pieces value level h.1.2⟩,
      isPlain_fieldPieces rest level (by simp [isPlain_newline]) h.2⟩

end

/-- The text of a value that can be written can be encoded. -/
theorem isPlain_render {value : Json} (h : value.Writable) : value.render.isPlain = true :=
  isPlain_flatten (isPlain_pieces value 0 h)

/-- All of a value that can be written is written. -/
theorem written_eq_render {value : Json} (h : value.Writable) : value.written = value.render := by
  have hpieces := List.takeWhile_eq_self_iff.mpr (isPlain_pieces value 0 h)
  rw [written, hpieces, render]

end SmallImp.Json
