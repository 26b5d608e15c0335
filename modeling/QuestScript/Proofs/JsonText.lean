/-
# QuestScript.Proofs.JsonText -- JSON values are read back from their text

A value that was written without blanks is read back, whatever stands behind its text but a
digit (`Json.read_compact`); and so is a whole text, if arrays and objects are not nested too
deep for the reader: `Json.parse?_compactText`.

Each part of a value has a lemma of its own, with the rest of the text behind it: an escaped
character (`stringBody_escape`), a string, a number, and the items and fields of an array or
object, which are read as long as the reader has a round for each of them.

Newlines are escaped wherever they occur, so such a text is one line
(`Json.newline_notMem_compactText`).
-/
import QuestScript.Json.Reader
import QuestScript.Json.Writer

namespace QuestScript.Json

set_option autoImplicit false

mutual

/-- How deep arrays and objects are nested. -/
def depth : Json → Nat
  | .arr items => depthItems items + 1
  | .obj fields => depthFields fields + 1
  | _ => 0

/-- The depth of the deepest of some items. -/
def depthItems : List Json → Nat
  | [] => 0
  | item :: items => max item.depth (depthItems items)

/-- The depth of the deepest of some fields. -/
def depthFields : List (String × Json) → Nat
  | [] => 0
  | (_, value) :: fields => max value.depth (depthFields fields)

end

variable {rest : List Char}

/-! ## Strings -/

theorem hexValue?_hexDigit {n : Nat} (h : n < 16) : hexValue? (hexDigit n) = some n := by
  have digits : ∀ n < 16, hexValue? (hexDigit n) = some n := by decide
  exact digits n h

/-- A control character is read back from its number. -/
theorem hexNumber?_control {n : Nat} (h : n < 32) :
    hexNumber? '0' '0' (hexDigit (n / 16)) (hexDigit (n % 16)) = some n := by
  have zero : hexValue? '0' = some 0 := by decide
  simp only [hexNumber?, zero, hexValue?_hexDigit (show n / 16 < 16 by omega),
    hexValue?_hexDigit (show n % 16 < 16 by omega), Option.bind_eq_bind, Option.bind_some,
    Option.some.injEq]
  omega

/-- A letter behind a backslash is read as what it stands for, unless it announces a number. -/
theorem stringBody_short {letter x : Char} (notNumber : letter ≠ 'u')
    (stands : unescape? letter = some x) (rest : List Char) :
    stringBody ('\\' :: letter :: rest) =
      (stringBody rest).map fun (cs, rest) => (x :: cs, rest) := by
  rw [stringBody.eq_4 _ _ fun _ _ _ _ _ number _ => notNumber number, stands]
  cases stringBody rest <;> rfl

/-- A character that is neither a quote nor a backslash nor below the blank stands for itself. -/
theorem stringBody_plain {c : Char} (notQuote : c ≠ '"') (notBackslash : c ≠ '\\')
    (printable : ¬ c.toNat < 32) (rest : List Char) :
    stringBody (c :: rest) = (stringBody rest).map fun (cs, rest) => (c :: cs, rest) := by
  rw [stringBody.eq_5 _ _ notQuote (fun _ _ _ _ _ escaped _ => notBackslash escaped)
    (fun _ _ escaped _ => notBackslash escaped), if_neg printable]
  cases stringBody rest <;> rfl

/-- A control character is read back from the four digits of its number. -/
theorem stringBody_control {c : Char} (control : c.toNat < 32) (rest : List Char) :
    stringBody ('\\' :: 'u' :: '0' :: '0' :: hexDigit (c.toNat / 16) ::
        hexDigit (c.toNat % 16) :: rest) =
      (stringBody rest).map fun (cs, rest) => (c :: cs, rest) := by
  have single : single? c.toNat = some c := by
    rw [single?, if_neg (by omega), Char.ofNat_toNat]
  have notHalf : isFirstHalf c.toNat = false := by
    rw [isFirstHalf, decide_eq_false (by omega), Bool.false_and]
  rw [stringBody, hexNumber?_control control]
  simp only [Option.bind_eq_bind, Option.bind_some, notHalf, Bool.false_eq_true, if_false, single]
  cases stringBody rest <;> rfl

/-- A character is read back from what it is escaped as. -/
theorem stringBody_escape (c : Char) (rest : List Char) : stringBody (escape c ++ rest) =
    (stringBody rest).map fun (cs, rest) => (c :: cs, rest) := by
  fun_cases escape c
  case case1 | case2 | case3 | case4 | case5 | case6 | case7 =>
    subst_vars
    exact stringBody_short (by decide) (by decide) rest
  case case8 control => exact stringBody_control control rest
  case case9 quote backslash _ _ _ _ _ printable =>
    exact stringBody_plain quote backslash printable rest

theorem stringBody_escaped (cs rest : List Char) :
    stringBody (cs.flatMap escape ++ '"' :: rest) = some (cs, rest) := by
  induction cs with
  | nil => simp [stringBody]
  | cons c cs ih => simp [stringBody_escape, ih]

theorem quoted_quote (text : String) (rest : List Char) :
    quoted (quote text ++ rest) = some (text, rest) := by
  have opens : skipGap (quote text ++ rest) =
      '"' :: (text.toList.flatMap escape ++ '"' :: rest) := by
    simp [quote, skipGap, isGap]
  simp [quoted, opens, stringBody_escaped]

/-! ## Numbers -/

/-- The text does not go on with a digit. -/
def NoDigit (rest : List Char) : Prop := ∀ c ∈ rest.head?, c.isDigit = false

theorem isDigit_toDigits (n : Nat) : ∀ c ∈ Nat.toDigits 10 n, c.isDigit = true :=
  fun _ member => Nat.isDigit_of_mem_toDigits (by decide) (by decide) member

/-- Only zero is written with a zero in front. -/
theorem head?_toDigits {n : Nat} (h : (Nat.toDigits 10 n).head? = some '0') : n = 0 := by
  induction n using Nat.strongRecOn with
  | ind n ih =>
      rw [Nat.toDigits_eq_if (by decide)] at h
      split at h
      · exact Nat.digitChar_eq_zero.mp (by simpa using h)
      · rename_i long
        obtain ⟨first, starts⟩ : ∃ c, (Nat.toDigits 10 (n / 10)).head? = some c :=
          ⟨_, List.head?_eq_some_head Nat.toDigits_ne_nil⟩
        rw [List.head?_append, starts, Option.some_or] at h
        have := ih (n / 10) (by omega) (starts.trans h)
        omega

theorem number_toDigits (n : Nat) (ends : NoDigit rest) :
    number (Nat.toDigits 10 n ++ rest) = some (n, rest) := by
  have digits := isDigit_toDigits n
  have stop : rest.takeWhile Char.isDigit = [] ∧ rest.dropWhile Char.isDigit = rest := by
    cases rest with
    | nil => exact ⟨rfl, rfl⟩
    | cons c cs => simp [ends c rfl]
  have taken : (Nat.toDigits 10 n ++ rest).takeWhile Char.isDigit = Nat.toDigits 10 n := by
    rw [List.takeWhile_append_of_pos digits, stop.1, List.append_nil]
  have dropped : (Nat.toDigits 10 n ++ rest).dropWhile Char.isDigit = rest := by
    rw [List.dropWhile_append_of_pos digits, stop.2]
  have plain : ¬ ((Nat.toDigits 10 n).head? = some '0' ∧ (Nat.toDigits 10 n).length > 1) := by
    rintro ⟨zero, long⟩
    rw [head?_toDigits zero] at long
    simp at long
  simp only [number, taken, dropped, Nat.toDigits_ne_nil, false_or, if_neg plain,
    Nat.ofDigitChars_ten_toDigits]

/-! ## Arrays and objects -/

theorem noDigit_compactItems (items : List Json) (rest : List Char) :
    NoDigit (compactItems items rest) := by
  cases items <;> simp [NoDigit, compactItems]

theorem noDigit_compactFields (fields : List (String × Json)) (rest : List Char) :
    NoDigit (compactFields fields rest) := by
  rcases fields with _ | ⟨⟨name, value⟩, fields⟩ <;> simp [NoDigit, compactFields]

mutual

/-- A value takes at least a character. -/
theorem length_compact : (j : Json) → (rest : List Char) →
    rest.length < (compact j rest).length
  | .null, rest | .bool true, rest | .bool false, rest | .str _, rest => by
      simp [compact, word, quote]
      omega
  | .num n, rest => by
      have := @Nat.length_toDigits_pos 10 n
      simp [compact, word]
      omega
  | .arr [], rest | .obj [], rest => by
      simp only [compact, List.length_cons]
      omega
  | .arr (item :: items), rest => by
      have first := length_compact item (compactItems items rest)
      have others := length_compactItems items rest
      simp only [compact, List.length_cons]
      omega
  | .obj ((name, value) :: fields), rest => by
      have first := length_compact value (compactFields fields rest)
      have others := length_compactFields fields rest
      simp only [compact, List.length_cons, List.length_append]
      omega

/-- Each item takes at least a character, and so does the bracket. -/
theorem length_compactItems : (items : List Json) → (rest : List Char) →
    items.length + rest.length < (compactItems items rest).length
  | [], rest => by simp [compactItems]
  | item :: items, rest => by
      have first := length_compact item (compactItems items rest)
      have others := length_compactItems items rest
      simp only [compactItems, List.length_cons]
      omega

/-- Each field takes at least a character, and so does the brace. -/
theorem length_compactFields : (fields : List (String × Json)) → (rest : List Char) →
    fields.length + rest.length < (compactFields fields rest).length
  | [], rest => by simp [compactFields]
  | (name, value) :: fields, rest => by
      have first := length_compact value (compactFields fields rest)
      have others := length_compactFields fields rest
      simp only [compactFields, List.length_cons, List.length_append]
      omega

end

/-- A value begins with its own first character, which is no blank and closes nothing. -/
theorem head_compact (j : Json) (rest : List Char) :
    ∃ c cs, compact j rest = c :: cs ∧ isGap c = false ∧ c ≠ ']' := by
  have digit {c : Char} (h : c.isDigit = true) : isGap c = false ∧ c ≠ ']' := by
    refine ⟨Bool.eq_false_iff.mpr fun gap => ?_, ?_⟩
    · simp only [isGap, Bool.or_eq_true, decide_eq_true_eq] at gap
      rcases gap with ((rfl | rfl) | rfl) | rfl <;> exact absurd h (by decide)
    · rintro rfl
      exact absurd h (by decide)
  cases j with
  | null => exact ⟨'n', _, rfl, by decide, by decide⟩
  | bool b => cases b <;> exact ⟨_, _, rfl, by decide, by decide⟩
  | num n =>
      cases digits : Nat.toDigits 10 n with
      | nil => exact absurd digits Nat.toDigits_ne_nil
      | cons c cs =>
          exact ⟨c, cs ++ rest, by simp [compact, word, digits],
            digit (isDigit_toDigits n c (by simp [digits]))⟩
  | str text => exact ⟨'"', _, rfl, by decide, by decide⟩
  | arr items => cases items <;> exact ⟨'[', _, rfl, by decide, by decide⟩
  | obj fields =>
      rcases fields with _ | ⟨⟨name, value⟩, fields⟩ <;> exact ⟨_, _, rfl, by decide, by decide⟩

theorem skipGap_solid {c : Char} (solid : isGap c = false) (cs : List Char) :
    skipGap (c :: cs) = c :: cs := by
  rw [skipGap, List.dropWhile_cons_of_neg (by simp [solid])]

theorem skipGap_compact (j : Json) (rest : List Char) :
    skipGap (compact j rest) = compact j rest := by
  obtain ⟨c, cs, text, solid, -⟩ := head_compact j rest
  rw [text, skipGap_solid solid]

theorem value_number {inner : Option (List Char → Option (Json × List Char))} (n : Nat)
    (ends : NoDigit rest) : value inner (Nat.toDigits 10 n ++ rest) = some (.num n, rest) := by
  have solid := skipGap_compact (.num n) rest
  have read := number_toDigits n ends
  simp only [compact, word] at solid
  cases digits : Nat.toDigits 10 n with
  | nil => exact absurd digits Nat.toDigits_ne_nil
  | cons c cs =>
      have isDigit := isDigit_toDigits n c (by simp [digits])
      rw [digits, List.cons_append] at solid read
      rw [List.cons_append, value, solid]
      split
      case h_7 => rw [read, Option.map_some]
      -- the words and brackets that a value may begin with are no digits
      all_goals
        rename_i whole
        obtain ⟨rfl, -⟩ := List.cons.inj whole
        exact absurd isDigit (by decide)

/-- Members of an array are read one by one, the first of them by itself. -/
theorem items_of_first {inner : List Char → Option (Json × List Char)} {items : List Json}
    (h : ∀ item ∈ items, ∀ rest, NoDigit rest → inner (compact item rest) = some (item, rest))
    {first : Json} {cs : List Char} (read : inner cs = some (first, compactItems items rest))
    {fuel : Nat} (enough : items.length < fuel) :
    Json.items inner fuel cs = some (first :: items, rest) := by
  induction items generalizing first cs fuel with
  | nil =>
      obtain ⟨fuel, rfl⟩ := Nat.exists_eq_succ_of_ne_zero (by omega : fuel ≠ 0)
      simp [Json.items, read, compactItems, skipGap, isGap]
  | cons item items ih =>
      obtain ⟨fuel, rfl⟩ := Nat.exists_eq_succ_of_ne_zero (by omega : fuel ≠ 0)
      obtain ⟨next, others⟩ := List.forall_mem_cons.mp h
      have behind := ih others (next _ (noDigit_compactItems items rest))
        (by simpa using enough : items.length < fuel)
      simp [Json.items, read, compactItems, skipGap, isGap, behind]

/-- Fields of an object are read one by one. -/
theorem fields_of_first {inner : List Char → Option (Json × List Char)}
    {fields : List (String × Json)}
    (h : ∀ field ∈ fields, ∀ rest, NoDigit rest →
      inner (compact field.2 rest) = some (field.2, rest))
    {name : String} {first : Json} {cs : List Char}
    (read : inner cs = some (first, compactFields fields rest)) {fuel : Nat}
    (enough : fields.length < fuel) :
    Json.fields inner fuel (quote name ++ ':' :: cs) = some ((name, first) :: fields, rest) := by
  induction fields generalizing name first cs fuel with
  | nil =>
      obtain ⟨fuel, rfl⟩ := Nat.exists_eq_succ_of_ne_zero (by omega : fuel ≠ 0)
      simp [Json.fields, quoted_quote, read, compactFields, skipGap, isGap]
  | cons field fields ih =>
      obtain ⟨fuel, rfl⟩ := Nat.exists_eq_succ_of_ne_zero (by omega : fuel ≠ 0)
      obtain ⟨next, others⟩ := List.forall_mem_cons.mp h
      have behind := @ih others field.1 _ _ (next _ (noDigit_compactFields fields rest)) fuel
        (by simpa using enough : fields.length < fuel)
      simp [Json.fields, quoted_quote, read, compactFields, skipGap, isGap, behind]

/-- A bracket that is not closed at once is followed by items. -/
theorem value_bracket {read : List Char → Option (Json × List Char)} {c : Char}
    (solid : isGap c = false) (notClosed : c ≠ ']') (cs : List Char) :
    value (some read) ('[' :: c :: cs) =
      (items read (c :: cs).length (c :: cs)).map fun (members, rest) => (.arr members, rest) := by
  rw [value, skipGap_solid (by decide)]
  simp only [Option.bind_some, skipGap_solid solid]
  split
  case h_1 closed => exact absurd (List.cons.inj closed).1 notClosed
  case h_2 => rfl

/-- A brace before a quote is followed by fields. -/
theorem value_brace {read : List Char → Option (Json × List Char)} (cs : List Char) :
    value (some read) ('{' :: '"' :: cs) =
      (fields read ('"' :: cs).length ('"' :: cs)).map
        fun (members, rest) => (.obj members, rest) := by
  rw [value, skipGap_solid (by decide)]
  simp only [Option.bind_some, skipGap_solid (show isGap '"' = false by decide)]
  rfl

/-! ## Values -/

theorem depth_le_of_mem {item : Json} {items : List Json} (h : item ∈ items) :
    item.depth ≤ depthItems items := by
  induction items with
  | nil => simp at h
  | cons first items ih =>
      rw [depthItems]
      rcases List.mem_cons.mp h with rfl | later
      · exact Nat.le_max_left ..
      · exact Nat.le_trans (ih later) (Nat.le_max_right ..)

theorem depth_le_of_mem_fields {field : String × Json} {fields : List (String × Json)}
    (h : field ∈ fields) : field.2.depth ≤ depthFields fields := by
  induction fields with
  | nil => simp at h
  | cons first fields ih =>
      rw [depthFields]
      rcases List.mem_cons.mp h with rfl | later
      · exact Nat.le_max_left ..
      · exact Nat.le_trans (ih later) (Nat.le_max_right ..)

/-- A value is read back from its text, whatever stands behind it but a digit, if the values
inside it are. -/
theorem value_compact {inner : Option (List Char → Option (Json × List Char))} (j : Json)
    (within : j.depth = 0 ∨ ∃ read, inner = some read ∧ ∀ member : Json, member.depth < j.depth →
      ∀ rest, NoDigit rest → read (compact member rest) = some (member, rest))
    (ends : NoDigit rest) : value inner (compact j rest) = some (j, rest) := by
  cases j with
  | null => simp [compact, word, value, skipGap, isGap]
  | bool b => cases b <;> simp [compact, word, value, skipGap, isGap]
  | num n => exact value_number n ends
  | str text => simp [compact, word, quote, value, skipGap, isGap, stringBody_escaped]
  | arr items =>
      obtain ⟨read, rfl, reads⟩ := within.resolve_left (by simp [depth])
      rcases items with _ | ⟨item, items⟩
      · simp [compact, value, skipGap, isGap]
      have reads {member : Json} (h : member ∈ item :: items) :=
        reads member (by have := depth_le_of_mem h; simp only [depth]; omega)
      have enough : items.length < (compact item (compactItems items rest)).length := by
        have := length_compact item (compactItems items rest)
        have := length_compactItems items rest
        omega
      have members := items_of_first (fun other h => reads (List.mem_cons_of_mem _ h))
        (reads List.mem_cons_self _ (noDigit_compactItems items rest)) enough
      obtain ⟨c, cs, begins, solid, notClosed⟩ := head_compact item (compactItems items rest)
      rw [compact, begins, value_bracket solid notClosed, ← begins, members, Option.map_some]
  | obj fields =>
      obtain ⟨read, rfl, reads⟩ := within.resolve_left (by simp [depth])
      rcases fields with _ | ⟨⟨name, value⟩, fields⟩
      · simp [compact, Json.value, skipGap, isGap]
      have reads {field : String × Json} (h : field ∈ (name, value) :: fields) :=
        reads field.2 (by have := depth_le_of_mem_fields h; simp only [depth]; omega)
      have enough : fields.length <
          (quote name ++ ':' :: compact value (compactFields fields rest)).length := by
        have := length_compact value (compactFields fields rest)
        have := length_compactFields fields rest
        simp only [List.length_append, List.length_cons]
        omega
      have members := @fields_of_first rest read fields
        (fun other h => reads (List.mem_cons_of_mem _ h)) name _ _
        (reads List.mem_cons_self _ (noDigit_compactFields fields rest)) _ enough
      rw [compact, quote, List.cons_append, value_brace, ← List.cons_append, ← quote, members,
        Option.map_some]

/-- **A value is read back from its text**, whatever stands behind it but a digit. -/
theorem read_compact (j : Json) {levels : Nat} (shallow : j.depth ≤ levels) (ends : NoDigit rest) :
    read levels (compact j rest) = some (j, rest) := by
  induction levels generalizing j rest with
  | zero => exact value_compact j (.inl (Nat.le_zero.mp shallow)) ends
  | succ levels ih =>
      exact value_compact j (.inr ⟨read levels, rfl, fun member inside rest ends =>
        ih member (by omega) ends⟩) ends

/-- **A value is read back from its whole text**, if arrays and objects are nested no deeper in
it than the reader goes. -/
theorem parse?_compactText (j : Json) (shallow : j.depth ≤ nestingLimit) :
    parse? j.compactText = some j := by
  have whole : read nestingLimit (compact j []) = some (j, []) :=
    read_compact j shallow (by simp [NoDigit])
  simp [parse?, compactText, whole, skipGap]

/-! ## One line -/

theorem newline_notMem_escape (c : Char) : '\n' ∉ escape c := by
  have digit {n : Nat} (h : n < 16) : '\n' ≠ hexDigit n := by
    have digits : ∀ n < 16, '\n' ≠ hexDigit n := by decide
    exact digits n h
  fun_cases escape c
  case case8 control =>
    have first := digit (show c.toNat / 16 < 16 by omega)
    have second := digit (show c.toNat % 16 < 16 by omega)
    simp [first, second]
  case case9 newline _ _ _ => simpa using Ne.symm newline
  all_goals decide

theorem newline_notMem_quote (text : String) : '\n' ∉ quote text := by
  simp [quote, newline_notMem_escape]

/-- The name of a field brings no newline. -/
theorem newline_of_field {name : String} {rest : List Char}
    (member : '\n' ∈ quote name ++ ':' :: rest) : '\n' ∈ rest := by
  rcases List.mem_append.mp member with inName | behind
  · exact absurd inName (newline_notMem_quote name)
  · exact List.mem_of_ne_of_mem (by decide) behind

mutual

/-- A value brings no newline; one in the text is behind it. -/
theorem newline_of_compact {rest : List Char} :
    (j : Json) → '\n' ∈ compact j rest → '\n' ∈ rest
  | .null | .bool true | .bool false | .arr [] | .obj [] => by simp [compact, word]
  | .num n => by
      have digits : '\n' ∉ Nat.toDigits 10 n := fun member =>
        absurd (isDigit_toDigits n _ member) (by decide)
      simp [compact, word, digits]
  | .str text => by simp [compact, word, newline_notMem_quote]
  | .arr (item :: items) => by
      intro member
      rw [compact] at member
      have inside := List.mem_of_ne_of_mem (by decide) member
      exact newline_of_compactItems items (newline_of_compact item inside)
  | .obj ((name, value) :: fields) => by
      intro member
      rw [compact] at member
      have inside := newline_of_field (List.mem_of_ne_of_mem (by decide) member)
      exact newline_of_compactFields fields (newline_of_compact value inside)

/-- Nor do items. -/
theorem newline_of_compactItems {rest : List Char} :
    (items : List Json) → '\n' ∈ compactItems items rest → '\n' ∈ rest
  | [] => by simp [compactItems]
  | item :: items => by
      intro member
      rw [compactItems] at member
      have inside := List.mem_of_ne_of_mem (by decide) member
      exact newline_of_compactItems items (newline_of_compact item inside)

/-- Nor do fields. -/
theorem newline_of_compactFields {rest : List Char} :
    (fields : List (String × Json)) → '\n' ∈ compactFields fields rest → '\n' ∈ rest
  | [] => by simp [compactFields]
  | (name, value) :: fields => by
      intro member
      rw [compactFields] at member
      have inside := newline_of_field (List.mem_of_ne_of_mem (by decide) member)
      exact newline_of_compactFields fields (newline_of_compact value inside)

end

/-- A value without blanks is written on one line. -/
theorem newline_notMem_compactText (j : Json) : '\n' ∉ j.compactText.toList := fun member => by
  rw [compactText, String.toList_ofList] at member
  exact absurd (newline_of_compact j member) List.not_mem_nil

end QuestScript.Json
