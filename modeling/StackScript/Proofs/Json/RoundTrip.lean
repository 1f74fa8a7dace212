import StackScript.Json.Printer
import StackScript.Json.Reader

/-!
# Reading what was written

## Design Notes

A writer takes the characters that come after its text, so a reader is described on the same shape: it
gives the value and leaves these characters.  The fuel of the reader is bounded by the characters before
it, twice, because every second call of the reader takes one.
-/

namespace StackScript

namespace Json

/-! ### Strings -/

theorem hexValue?_hexDigit : ∀ n < 16, hexValue? (hexDigit n) = some n := by decide

theorem hexQuad?_control {n : Nat} (h : n < 32) :
    hexQuad? '0' '0' (hexDigit (n / 16)) (hexDigit (n % 16)) = some n := by
  have hzero : hexValue? '0' = some 0 := rfl
  have hhigh := hexValue?_hexDigit (n / 16) (by omega)
  have hlow := hexValue?_hexDigit (n % 16) (by omega)
  simp only [hexQuad?, hzero, hhigh, hlow, Option.bind_eq_bind, Option.bind_some, Option.pure_def, Option.some.injEq]
  omega

variable {c : Char} {depth : Nat}

variable {n : Int} {rest cs : List Char} {fuel d e : Nat} {items : List Json} {members : List (String × Json)}

/-- A character that is not escaped is read as it is. -/
theorem readString_cons (hquote : c ≠ '"') (hslash : c ≠ '\\') (hcontrol : ¬c.toNat < 32) :
    readString (c :: rest) = (readString rest).map fun r => (c :: r.1, r.2) := by
  rw [readString.eq_def]
  split
  · next h => cases h
  · next h => cases h; exact absurd rfl hquote
  · next h => cases h; exact absurd rfl hslash
  · next h => cases h; exact absurd rfl hslash
  · next h =>
    cases h
    rw [if_neg (by simp [hcontrol, hslash])]
    cases readString rest <;> rfl

/-- A character is read as it is written. -/
theorem readString_escapeChar (c : Char) (rest : List Char) :
    readString (escapeChar c ++ rest) = (readString rest).map fun r => (c :: r.1, r.2) := by
  -- A pair of characters, as which seven characters are written.
  have hpair (e : Char) (hu : e ≠ 'u') (he : unescape? e = some c) :
      readString ('\\' :: e :: rest) = (readString rest).map fun r => (c :: r.1, r.2) := by
    rw [readString.eq_def]
    split
    · next h => cases h
    · next h => cases h
    · next h => cases h; exact absurd rfl hu
    · next h =>
      cases h
      rw [he]
      cases readString rest <;> rfl
    · next hother h => cases h; exact (hother _ _ rfl rfl).elim
  unfold escapeChar
  iterate 7
    split
    · next h => subst h; exact hpair _ (by decide) rfl
  split
  · next hcontrol =>
    simp only [List.cons_append, List.nil_append]
    rw [readString, hexQuad?_control hcontrol]
    simp only [Option.bind_eq_bind, Option.bind_some]
    rw [if_pos (.inl (by omega)), Char.ofNat_toNat]
    cases readString rest <;> rfl
  · next hquote hslash _ _ _ _ _ hcontrol => exact readString_cons hquote hslash hcontrol

/-- **A string is read back** up to the quote that closes it. -/
theorem readString_writeChars (cs rest : List Char) : readString (writeChars cs ('"' :: rest)) = some (cs, rest) := by
  induction cs with
  | nil => rw [writeChars, readString]
  | cons c cs ih => rw [writeChars, readString_escapeChar, ih, Option.map_some]

/-! ### Numbers -/

/-- What may follow a number: nothing that would go on with it. -/
def Stops (rest : List Char) : Prop :=
  ∀ c ∈ rest.head?, c.isDigit = false ∧ c ≠ '.' ∧ c ≠ 'e' ∧ c ≠ 'E'

theorem stops_nil : Stops [] := fun c hc => by cases hc

theorem stops_cons (h : c.isDigit = false ∧ c ≠ '.' ∧ c ≠ 'e' ∧ c ≠ 'E') : Stops (c :: rest) :=
  fun d hd => by cases hd; exact h

/-- Further digits make a number no smaller. -/
theorem le_ofDigitChars (ds : List Char) (acc : Nat) : acc ≤ Nat.ofDigitChars 10 ds acc := by
  rw [Nat.ofDigitChars_eq_ofDigitChars_zero]
  have hpow : 0 < 10 ^ ds.length := Nat.pow_pos (by decide)
  exact Nat.le_trans (Nat.le_mul_of_pos_left acc hpow) (Nat.le_add_right _ _)

/-- A number that fits 64 bits is read to its last digit. -/
theorem accumulate_eq (ds : List Char) (acc : Nat) (h : Nat.ofDigitChars 10 ds acc < significandLimit) :
    accumulate acc ds = (Nat.ofDigitChars 10 ds acc, ds.length) := by
  induction ds generalizing acc with
  | nil => rw [accumulate, Nat.ofDigitChars_nil, List.length_nil]
  | cons d ds ih =>
    rw [Nat.ofDigitChars_cons, Nat.mul_comm] at h ⊢
    have hnext : acc * 10 + (d.toNat - '0'.toNat) < significandLimit :=
      Nat.lt_of_le_of_lt (le_ofDigitChars ds _) h
    simp only [accumulate, if_pos hnext, ih _ h, List.length_cons]

/-- Only zero is written with a leading zero. -/
theorem head?_toDigits (n : Nat) (h : (Nat.toDigits 10 n).head? = some '0') : n = 0 := by
  induction n using Nat.strongRecOn with
  | _ n ih =>
    rw [Nat.toDigits_eq_if (by decide)] at h
    split at h
    · simpa using h
    · next hlarge =>
      rw [List.head?_append, List.head?_eq_some_head Nat.toDigits_ne_nil, Option.some_or,
        ← List.head?_eq_some_head] at h
      have hzero := ih (n / 10) (by omega) h
      omega

/-- The digits of a number are taken up to what follows it. -/
theorem digits_toDigits (n : Nat) (hrest : Stops rest) :
    digits (Nat.toDigits 10 n ++ rest) = (Nat.toDigits 10 n, rest) := by
  have hdigits : ∀ c ∈ Nat.toDigits 10 n, c.isDigit = true :=
    fun c hc => Nat.isDigit_of_mem_toDigits (by decide) (by decide) hc
  have htake : rest.takeWhile Char.isDigit = [] := by
    cases rest with
    | nil => rfl
    | cons c cs => exact List.takeWhile_cons_of_neg (by simp [(hrest c rfl).1])
  have hdrop : rest.dropWhile Char.isDigit = rest := by
    cases rest with
    | nil => rfl
    | cons c cs => exact List.dropWhile_cons_of_neg (by simp [(hrest c rfl).1])
  rw [digits, List.takeWhile_append_of_pos hdigits, List.dropWhile_append_of_pos hdigits, htake, hdrop, List.append_nil]

theorem readFraction_of_stops (h : Stops rest) : readFraction rest = some ([], rest) := by
  unfold readFraction
  split
  · next rest' => exact absurd rfl (h '.' rfl).2.1
  · rfl

theorem readExponent_of_stops (h : Stops rest) : readExponent rest = some (none, rest) := by
  unfold readExponent
  cases rest with
  | nil => rfl
  | cons c cs => exact if_neg (by simp [(h c rfl).2.2])

/-- The digits of a number without a fraction or an exponent, after its sign. -/
theorem readNumber_toDigits {negative : Bool} {n : Nat} {rest : List Char} (hrest : Stops rest) :
    readNumber ((if negative then ['-'] else []) ++ (Nat.toDigits 10 n ++ rest)) =
      (numberOf? negative (Nat.toDigits 10 n) [] none).map fun j => (j, rest) := by
  obtain ⟨d, ds, hds⟩ := List.exists_cons_of_ne_nil (@Nat.toDigits_ne_nil n 10)
  have hsign : d ≠ '-' := by
    rintro rfl
    have hdigit : '-'.isDigit = true :=
      @Nat.isDigit_of_mem_toDigits 10 n '-' (by decide) (by decide) (by simp [hds])
    exact absurd hdigit (by decide)
  have hwhole : ¬((Nat.toDigits 10 n).isEmpty = true ∨
      (Nat.toDigits 10 n).head? = some '0' ∧ (Nat.toDigits 10 n).length ≠ 1) := by
    rintro (hempty | ⟨hzero, hlong⟩)
    · exact Nat.toDigits_ne_nil (List.isEmpty_iff.1 hempty)
    · rw [head?_toDigits n hzero] at hlong
      exact hlong rfl
  have hhead : (((if negative then ['-'] else []) ++ (Nat.toDigits 10 n ++ rest)).head? = some '-') =
      (negative = true) := by
    cases negative <;> simp [hds, hsign]
  have htail : (if negative = true then ((if negative then ['-'] else []) ++
      (Nat.toDigits 10 n ++ rest)).drop 1 else (if negative then ['-'] else []) ++
        (Nat.toDigits 10 n ++ rest)) = Nat.toDigits 10 n ++ rest := by
    cases negative <;> rfl
  simp only [readNumber, hhead, htail, digits_toDigits n hrest, if_neg hwhole, Bool.decide_eq_true,
    readFraction_of_stops hrest, readExponent_of_stops hrest, Option.bind_eq_bind, Option.bind_some]
  cases numberOf? negative (Nat.toDigits 10 n) [] none <;> rfl

/-- The integers whose text is read back as an integer. -/
def IntFits (n : Int) : Prop :=
  -(twoPow 63 : Int) ≤ n ∧ n < twoPow 64

/-- **A number is read back** in front of anything that does not go on with it. -/
theorem readNumber_toString (h : IntFits n) (hrest : Stops rest) :
    readNumber ((toString n).toList ++ rest) = some (.int n, rest) := by
  have hlimit : significandLimit = twoPow 64 := rfl
  have haccumulate (m : Nat) (hm : m < twoPow 64) :
      accumulate 0 (Nat.toDigits 10 m) = (m, (Nat.toDigits 10 m).length) := by
    have hvalue : Nat.ofDigitChars 10 (Nat.toDigits 10 m) 0 = m := Nat.ofDigitChars_ten_toDigits
    rw [accumulate_eq _ _ (by rw [hvalue, hlimit]; exact hm), hvalue]
  rw [Int.toString_eq_repr, Int.repr_eq_if]
  obtain ⟨hlow, hhigh⟩ := h
  split
  · next hsign =>
    have hread := @readNumber_toDigits false n.toNat rest hrest
    have hnumber : numberOf? false (Nat.toDigits 10 n.toNat) [] none = some (.int n.toNat) := by
      simp [numberOf?, haccumulate n.toNat (by omega)]
    rw [hnumber, Option.map_some, Int.toNat_of_nonneg hsign] at hread
    simpa using hread
  · next hsign =>
    have hread := @readNumber_toDigits true (-n).toNat rest hrest
    have hlt : (-n).toNat < twoPow 64 := by
      have hpow : twoPow 63 < twoPow 64 := by decide
      omega
    have hnumber : numberOf? true (Nat.toDigits 10 (-n).toNat) [] none = some (.int (-((-n).toNat : Int))) := by
      have hpos : 0 < (-n).toNat := by omega
      have hle : (-n).toNat ≤ twoPow 63 := by omega
      simp [numberOf?, haccumulate (-n).toNat hlt, hpos, hle]
    rw [hnumber, Option.map_some, Int.toNat_of_nonneg (by omega), Int.neg_neg] at hread
    simpa using hread

/-! ### Values -/

mutual

/-- The values whose text is read back, with a given number of levels of nesting. -/
def Fits : Nat → Json → Prop
  | _, null => True
  | _, bool _ => True
  | _, int n => IntFits n
  | _, float _ => False
  | _, str _ => True
  | depth, arr items => 1 < depth ∧ ItemsFit (depth - 1) items
  | depth, obj members => 1 < depth ∧ MembersFit (depth - 1) members

def ItemsFit : Nat → List Json → Prop
  | _, [] => True
  | depth, item :: items => Fits depth item ∧ ItemsFit depth items

def MembersFit : Nat → List (String × Json) → Prop
  | _, [] => True
  | depth, (_, value) :: members => Fits depth value ∧ MembersFit depth members

end

/-- A text that starts with a character that is no blank and closes no array. -/
def Starts (cs : List Char) : Prop :=
  ∃ c rest, cs = c :: rest ∧ isBlank c = false ∧ c ≠ ']'

theorem Starts.skipBlanks_eq (h : Starts cs) : skipBlanks cs = cs := by
  obtain ⟨c, rest, rfl, hblank, -⟩ := h
  exact List.dropWhile_cons_of_neg (by simp [hblank])

@[simp] theorem skipBlanks_cons (h : isBlank c = false) : skipBlanks (c :: rest) = c :: rest :=
  List.dropWhile_cons_of_neg (by simp [h])

theorem skipBlanks_blank (h : isBlank c = true) : skipBlanks (c :: rest) = skipBlanks rest :=
  List.dropWhile_cons_of_pos h

/-- A break is made of blanks. -/
@[simp] theorem skipBlanks_lineBreak (layout : JsonLayout) (depth : Nat) (rest : List Char) :
    skipBlanks (layout.lineBreak depth rest) = skipBlanks rest := by
  cases layout with
  | compact => rfl
  | pretty =>
    have hspaces : ∀ c ∈ List.replicate (2 * depth) ' ', isBlank c = true :=
      fun c hc => (List.eq_of_mem_replicate hc).symm ▸ rfl
    rw [JsonLayout.lineBreak, skipBlanks_blank rfl, skipBlanks, List.dropWhile_append_of_pos hspaces, skipBlanks]

theorem stops_lineBreak (layout : JsonLayout) (depth : Nat) (h : Stops rest) : Stops (layout.lineBreak depth rest) := by
  cases layout with
  | compact => exact h
  | pretty => exact stops_cons (by decide)

/-- The text of an integer starts with its sign or a digit. -/
theorem toString_int_cons (n : Int) : ∃ c cs, (toString n).toList = c :: cs ∧ (c = '-' ∨ c.isDigit = true) := by
  rw [Int.toString_eq_repr, Int.repr_eq_if]
  split
  · obtain ⟨d, ds, hds⟩ := List.exists_cons_of_ne_nil (@Nat.toDigits_ne_nil n.toNat 10)
    refine ⟨d, ds, by rw [Nat.toList_repr, hds], .inr ?_⟩
    exact @Nat.isDigit_of_mem_toDigits 10 n.toNat d (by decide) (by decide) (by simp [hds])
  · exact ⟨'-', _, by rw [String.toList_append]; rfl, .inl rfl⟩

/-- A character that starts a number starts nothing else. -/
theorem readValue_number (h : c = '-' ∨ c.isDigit = true)
    (fuel depth : Nat) : readValue (fuel + 1) depth (c :: cs) = readNumber (c :: cs) := by
  -- The other forms start with a quote, a bracket, a brace or a letter.
  unfold readValue
  split
  all_goals first
    | rfl
    | next heq => cases heq; exact absurd h (by decide)
    | next heq => cases heq

variable (layout : JsonLayout)

/-! ### What is written stands in front -/

theorem suffix_lineBreak (depth : Nat) (rest : List Char) : rest <:+ layout.lineBreak depth rest := by
  cases layout with
  | compact => exact List.suffix_rfl
  | pretty => exact (List.suffix_append _ _).trans (List.suffix_cons _ _)

theorem suffix_colon (rest : List Char) : rest <:+ layout.colon rest := by
  cases layout with
  | compact => exact List.suffix_cons _ _
  | pretty => exact (List.suffix_cons _ _).trans (List.suffix_cons _ _)

theorem suffix_writeString (s : String) (rest : List Char) : rest <:+ writeString s rest := by
  have hchars (cs : List Char) : '"' :: rest <:+ writeChars cs ('"' :: rest) := by
    induction cs with
    | nil => exact List.suffix_rfl
    | cons c cs ih => exact ih.trans (List.suffix_append _ _)
  exact (List.suffix_cons _ _).trans ((hchars s.toList).trans (List.suffix_cons _ _))

mutual

theorem suffix_write (depth : Nat) : ∀ (j : Json) (rest : List Char), rest <:+ write layout depth j rest
  | null, rest => by rw [write]; exact List.suffix_append _ _
  | bool b, rest => by rw [write]; exact List.suffix_append _ _
  | int n, rest => by rw [write]; exact List.suffix_append _ _
  | float x, rest => by rw [write]; exact List.suffix_append _ _
  | str s, rest => by rw [write]; exact suffix_writeString s rest
  | arr [], rest => by rw [write]; exact (List.suffix_cons _ _).trans (List.suffix_cons _ _)
  | arr (item :: items), rest => by
    rw [write]
    have hclose : rest <:+ layout.lineBreak depth (']' :: rest) :=
      (List.suffix_cons _ _).trans (suffix_lineBreak layout depth _)
    have hitems := hclose.trans (suffix_writeItems (depth + 1) items _)
    have hitem := hitems.trans (suffix_write (depth + 1) item _)
    exact (hitem.trans (suffix_lineBreak layout _ _)).trans (List.suffix_cons _ _)
  | obj [], rest => by rw [write]; exact (List.suffix_cons _ _).trans (List.suffix_cons _ _)
  | obj ((key, value) :: members), rest => by
    rw [write]
    have hclose : rest <:+ layout.lineBreak depth ('\x7d' :: rest) :=
      (List.suffix_cons _ _).trans (suffix_lineBreak layout depth _)
    have hmembers := hclose.trans (suffix_writeMembers (depth + 1) members _)
    have hvalue := hmembers.trans (suffix_write (depth + 1) value _)
    have hkey := (hvalue.trans (suffix_colon layout _)).trans (suffix_writeString key _)
    exact (hkey.trans (suffix_lineBreak layout _ _)).trans (List.suffix_cons _ _)

theorem suffix_writeItems (depth : Nat) : ∀ (items : List Json) (rest : List Char),
    rest <:+ writeItems layout depth items rest
  | [], rest => by unfold writeItems; exact List.suffix_rfl
  | item :: items, rest => by
    rw [writeItems]
    have hitem := (suffix_writeItems depth items rest).trans (suffix_write depth item _)
    exact (hitem.trans (suffix_lineBreak layout _ _)).trans (List.suffix_cons _ _)

theorem suffix_writeMembers (depth : Nat) : ∀ (members : List (String × Json)) (rest : List Char),
    rest <:+ writeMembers layout depth members rest
  | [], rest => by unfold writeMembers; exact List.suffix_rfl
  | (key, value) :: members, rest => by
    rw [writeMembers]
    have hvalue := (suffix_writeMembers depth members rest).trans (suffix_write depth value _)
    have hkey := (hvalue.trans (suffix_colon layout _)).trans (suffix_writeString key _)
    exact (hkey.trans (suffix_lineBreak layout _ _)).trans (List.suffix_cons _ _)

end

/-- The items of an array, and what follows the array. -/
def itemsText (d e : Nat) (item : Json) (items : List Json) (rest : List Char) : List Char :=
  write layout d item (writeItems layout d items (layout.lineBreak e (']' :: rest)))

/-- The members of an object, and what follows the object. -/
def membersText (d e : Nat) (key : String) (value : Json) (members : List (String × Json))
    (rest : List Char) : List Char :=
  writeString key (layout.colon (write layout d value
    (writeMembers layout d members (layout.lineBreak e ('\x7d' :: rest)))))

theorem write_arr (d : Nat) (item : Json) (items : List Json) (rest : List Char) :
    write layout d (arr (item :: items)) rest =
      '[' :: layout.lineBreak (d + 1) (itemsText layout (d + 1) d item items rest) := by
  rw [write, itemsText]

theorem write_obj (d : Nat) (key : String) (value : Json) (members : List (String × Json)) (rest : List Char) :
    write layout d (obj ((key, value) :: members)) rest =
      '\x7b' :: layout.lineBreak (d + 1) (membersText layout (d + 1) d key value members rest) := by
  rw [write, membersText]

theorem itemsText_nil (d e : Nat) (item : Json) (rest : List Char) :
    itemsText layout d e item [] rest = write layout d item (layout.lineBreak e (']' :: rest)) := by
  rw [itemsText, writeItems]

theorem itemsText_cons (d e : Nat) (item next : Json) (items : List Json) (rest : List Char) :
    itemsText layout d e item (next :: items) rest =
      write layout d item (',' :: layout.lineBreak d (itemsText layout d e next items rest)) := by
  rw [itemsText, writeItems, itemsText]

theorem membersText_nil (d e : Nat) (key : String) (value : Json) (rest : List Char) :
    membersText layout d e key value [] rest =
      writeString key (layout.colon (write layout d value (layout.lineBreak e ('\x7d' :: rest)))) := by
  rw [membersText, writeMembers]

theorem membersText_cons (d e : Nat) (key name : String) (value next : Json)
    (members : List (String × Json)) (rest : List Char) :
    membersText layout d e key value ((name, next) :: members) rest =
      writeString key (layout.colon (write layout d value
        (',' :: layout.lineBreak d (membersText layout d e name next members rest)))) := by
  rw [membersText, writeMembers, membersText]

theorem starts_membersText (d e : Nat) (key : String) (value : Json) (members : List (String × Json))
    (rest : List Char) : Starts (membersText layout d e key value members rest) :=
  ⟨'"', _, rfl, by decide, by decide⟩

/-! ### Reading back -/

section

variable {fuel depth : Nat} {text after rest : List Char} {key : String} {item value : Json}
  {items : List Json} {members : List (String × Json)}

theorem readItems_last (hitem : readValue fuel depth text = some (item, after))
    (hafter : skipBlanks after = ']' :: rest) : readItems (fuel + 1) depth text = some ([item], rest) := by
  simp only [readItems, hitem, Option.bind_eq_bind, Option.bind_some, hafter]

theorem readItems_more {more : List Char} (hitem : readValue fuel depth text = some (item, after))
    (hafter : skipBlanks after = ',' :: more) (hitems : readItems fuel depth (skipBlanks more) = some (items, rest)) :
    readItems (fuel + 1) depth text = some (item :: items, rest) := by
  simp only [readItems, hitem, Option.bind_eq_bind, Option.bind_some, hafter, hitems, Option.pure_def]

/-- Between a name and its value there is a colon, and blanks. -/
theorem skipBlanks_colon (text : List Char) :
    ∃ more, skipBlanks (layout.colon text) = ':' :: more ∧ skipBlanks more = skipBlanks text := by
  cases layout with
  | compact => exact ⟨text, skipBlanks_cons (by decide), rfl⟩
  | pretty => exact ⟨' ' :: text, skipBlanks_cons (by decide), skipBlanks_blank (by decide)⟩

theorem readMembers_last (hvalue : readValue fuel depth (skipBlanks text) = some (value, after))
    (hafter : skipBlanks after = '\x7d' :: rest) :
    readMembers (fuel + 1) depth (writeString key (layout.colon text)) = some ([(key, value)], rest) := by
  obtain ⟨more, hcolon, hmore⟩ := skipBlanks_colon layout text
  rw [writeString, readMembers, readString_writeChars]
  simp only [Option.bind_eq_bind, Option.bind_some, hcolon, hmore, hvalue, hafter, String.ofList_toList]

theorem readMembers_more {next : List Char} (hvalue : readValue fuel depth (skipBlanks text) = some (value, after))
    (hafter : skipBlanks after = ',' :: next)
    (hmembers : readMembers fuel depth (skipBlanks next) = some (members, rest)) :
    readMembers (fuel + 1) depth (writeString key (layout.colon text)) = some ((key, value) :: members, rest) := by
  obtain ⟨more, hcolon, hmore⟩ := skipBlanks_colon layout text
  rw [writeString, readMembers, readString_writeChars]
  simp only [Option.bind_eq_bind, Option.bind_some, hcolon, hmore, hvalue, hafter, hmembers,
    String.ofList_toList, Option.pure_def]

theorem readValue_arr (hdepth : 1 < depth) (hstart : Starts text)
    (hitems : readItems fuel (depth - 1) text = some (items, rest)) (d : Nat) :
    readValue (fuel + 1) depth ('[' :: layout.lineBreak d text) = some (arr items, rest) := by
  rw [readValue, if_neg (by omega), skipBlanks_lineBreak, hstart.skipBlanks_eq]
  split
  · obtain ⟨c, cs, hcs, -, hclose⟩ := hstart
    cases hcs
    exact absurd rfl hclose
  · rw [hitems]
    rfl

theorem readValue_obj (hdepth : 1 < depth)
    (hmembers : readMembers fuel (depth - 1) (writeString key text) = some (members, rest)) (d : Nat) :
    readValue (fuel + 1) depth ('\x7b' :: layout.lineBreak d (writeString key text)) = some (obj members, rest) := by
  rw [readValue, if_neg (by omega), skipBlanks_lineBreak]
  rw [writeString] at hmembers ⊢
  rw [skipBlanks_cons (by decide)]
  show (readMembers fuel (depth - 1) _ >>= _) = _
  rw [hmembers]
  rfl

end

/-- A value is read back in front of anything that does not go on with a number.  Two rounds of the reader
take at least one character. -/
structure ReadsBack (depth : Nat) (j : Json) : Prop where
  starts : ∀ d rest, Starts (write layout d j rest)
  read : ∀ d fuel rest, Stops rest → 2 * (write layout d j rest).length ≤ fuel + 1 →
    readValue (fuel + 1) depth (write layout d j rest) = some (j, rest)

variable {layout}

theorem readItems_write {item : Json}
    (hitem : item.ReadsBack layout depth) (hitems : ∀ i ∈ items, ReadsBack layout depth i)
    (hfuel : 2 * (itemsText layout d e item items rest).length ≤ fuel) :
    readItems (fuel + 1) depth (itemsText layout d e item items rest) = some (item :: items, rest) := by
  induction items generalizing item fuel with
  | nil =>
    rw [itemsText_nil] at hfuel ⊢
    have hlength := ((suffix_lineBreak layout e (']' :: rest)).trans (suffix_write layout d item _)).length_le
    rw [List.length_cons] at hlength
    obtain ⟨fuel, rfl⟩ := Nat.exists_eq_add_one.2 (show 0 < fuel by omega)
    refine readItems_last (hitem.read d fuel _ ?_ hfuel) ?_
    · exact stops_lineBreak layout e (stops_cons (by decide))
    · rw [skipBlanks_lineBreak, skipBlanks_cons (by decide)]
  | cons next items ih =>
    obtain ⟨hnext, hmore⟩ := List.forall_mem_cons.1 hitems
    rw [itemsText_cons] at hfuel ⊢
    have hbreak := (suffix_lineBreak layout d (itemsText layout d e next items rest)).length_le
    have hlength := (suffix_write layout d item
      (',' :: layout.lineBreak d (itemsText layout d e next items rest))).length_le
    rw [List.length_cons] at hlength
    obtain ⟨fuel, rfl⟩ := Nat.exists_eq_add_one.2 (show 0 < fuel by omega)
    refine readItems_more (hitem.read d fuel _ (stops_cons (by decide)) hfuel) (skipBlanks_cons (by decide)) ?_
    have hstart : Starts (itemsText layout d e next items rest) := hnext.starts d _
    rw [skipBlanks_lineBreak, hstart.skipBlanks_eq]
    exact ih hnext hmore (by omega)

theorem readMembers_write {key : String} {value : Json} (hvalue : value.ReadsBack layout depth)
    (hmembers : ∀ m ∈ members, ReadsBack layout depth m.2)
    (hfuel : 2 * (membersText layout d e key value members rest).length ≤ fuel) :
    readMembers (fuel + 1) depth (membersText layout d e key value members rest) =
      some ((key, value) :: members, rest) := by
  induction members generalizing key value fuel with
  | nil =>
    rw [membersText_nil] at hfuel ⊢
    have hkey := ((suffix_colon layout (write layout d value (layout.lineBreak e ('\x7d' :: rest)))).trans
      (suffix_writeString key _)).length_le
    have hlength := ((suffix_lineBreak layout e ('\x7d' :: rest)).trans (suffix_write layout d value _)).length_le
    rw [List.length_cons] at hlength
    obtain ⟨fuel, rfl⟩ := Nat.exists_eq_add_one.2 (show 0 < fuel by omega)
    have hread := hvalue.read d fuel (layout.lineBreak e ('\x7d' :: rest))
      (stops_lineBreak layout e (stops_cons (by decide))) (by omega)
    refine readMembers_last layout (by rwa [(hvalue.starts d _).skipBlanks_eq]) ?_
    rw [skipBlanks_lineBreak, skipBlanks_cons (by decide)]
  | cons m members ih =>
    obtain ⟨name, next⟩ := m
    obtain ⟨hnext, hmore⟩ := List.forall_mem_cons.1 hmembers
    rw [membersText_cons] at hfuel ⊢
    have hbreak := (suffix_lineBreak layout d (membersText layout d e name next members rest)).length_le
    have hlength := (suffix_write layout d value
      (',' :: layout.lineBreak d (membersText layout d e name next members rest))).length_le
    have hkey := ((suffix_colon layout (write layout d value
      (',' :: layout.lineBreak d (membersText layout d e name next members rest)))).trans
        (suffix_writeString key _)).length_le
    rw [List.length_cons] at hlength
    obtain ⟨fuel, rfl⟩ := Nat.exists_eq_add_one.2 (show 0 < fuel by omega)
    have hread := hvalue.read d fuel (',' :: layout.lineBreak d
      (membersText layout d e name next members rest)) (stops_cons (by decide)) (by omega)
    refine readMembers_more layout (by rwa [(hvalue.starts d _).skipBlanks_eq]) (skipBlanks_cons (by decide)) ?_
    rw [skipBlanks_lineBreak, (starts_membersText layout d e name next members rest).skipBlanks_eq]
    exact ih hnext hmore (by omega)

theorem readsBack_int (h : IntFits n) (depth : Nat) : (int n).ReadsBack layout depth where
  starts d rest := by
    obtain ⟨c, cs, hcs, hc⟩ := toString_int_cons n
    refine ⟨c, cs ++ rest, by rw [write, hcs, List.cons_append], ?_, ?_⟩
    · cases hblank : isBlank c with
      | false => rfl
      | true =>
        have hcases : ((c = ' ' ∨ c = '\n') ∨ c = '\t') ∨ c = '\r' := by simpa [isBlank] using hblank
        rcases hcases with ((rfl | rfl) | rfl) | rfl <;> exact absurd hc (by decide)
    · rintro rfl
      exact absurd hc (by decide)
  read d fuel rest hrest _ := by
    obtain ⟨c, cs, hcs, hc⟩ := toString_int_cons n
    rw [write, hcs, List.cons_append, readValue_number hc, ← List.cons_append, ← hcs]
    exact readNumber_toString h hrest

theorem readsBack_arr (hdepth : 1 < depth)
    (hitems : ∀ i ∈ items, ReadsBack layout (depth - 1) i) : (arr items).ReadsBack layout depth where
  starts d rest := by cases items <;> exact ⟨'[', _, by rw [write], by decide, by decide⟩
  read d fuel rest hrest hfuel := by
    cases items with
    | nil =>
      rw [write, readValue, if_neg (Nat.not_le.2 hdepth), skipBlanks_cons (by decide)]
      rfl
    | cons item items =>
      obtain ⟨hitem, hmore⟩ := List.forall_mem_cons.1 hitems
      rw [write_arr] at hfuel ⊢
      have hbreak := (suffix_lineBreak layout (d + 1) (itemsText layout (d + 1) d item items rest)).length_le
      rw [List.length_cons] at hfuel
      obtain ⟨fuel, rfl⟩ := Nat.exists_eq_add_one.2 (show 0 < fuel by omega)
      exact readValue_arr layout hdepth (hitem.starts _ _) (readItems_write hitem hmore (by omega)) _

theorem readsBack_obj (hdepth : 1 < depth)
    (hmembers : ∀ m ∈ members, ReadsBack layout (depth - 1) m.2) : (obj members).ReadsBack layout depth where
  starts d rest := by cases members <;> exact ⟨'\x7b', _, by rw [write], by decide, by decide⟩
  read d fuel rest hrest hfuel := by
    cases members with
    | nil =>
      rw [write, readValue, if_neg (Nat.not_le.2 hdepth), skipBlanks_cons (by decide)]
      rfl
    | cons m members =>
      obtain ⟨key, value⟩ := m
      obtain ⟨hvalue : value.ReadsBack layout _, hmore⟩ := List.forall_mem_cons.1 hmembers
      rw [write_obj] at hfuel ⊢
      have hbreak := (suffix_lineBreak layout (d + 1) (membersText layout (d + 1) d key value members rest)).length_le
      rw [List.length_cons] at hfuel
      obtain ⟨fuel, rfl⟩ := Nat.exists_eq_add_one.2 (show 0 < fuel by omega)
      exact readValue_obj layout hdepth (readMembers_write hvalue hmore (by omega)) _

mutual

/-- **A value that fits is read back.** -/
theorem Fits.readsBack : ∀ {depth : Nat} {j : Json}, j.Fits depth → j.ReadsBack layout depth
  | _, null, _ =>
    ⟨fun _ _ => ⟨'n', _, by rw [write]; rfl, by decide, by decide⟩, fun _ _ _ _ _ => by rw [write]; rfl⟩
  | _, bool true, _ =>
    ⟨fun _ _ => ⟨'t', _, by rw [write]; rfl, by decide, by decide⟩, fun _ _ _ _ _ => by rw [write]; rfl⟩
  | _, bool false, _ =>
    ⟨fun _ _ => ⟨'f', _, by rw [write]; rfl, by decide, by decide⟩, fun _ _ _ _ _ => by rw [write]; rfl⟩
  | depth, int _, h => readsBack_int h depth
  | _, float _, h => h.elim
  | _, str s, _ => by
    refine ⟨fun _ _ => ⟨'"', _, by rw [write]; rfl, by decide, by decide⟩, fun _ _ _ _ _ => ?_⟩
    rw [write, writeString, readValue, readString_writeChars]
    simp only [Option.bind_eq_bind, Option.bind_some, String.ofList_toList, Option.pure_def]
  | _, arr _, h => readsBack_arr h.1 (ItemsFit.readsBack h.2)
  | _, obj _, h => readsBack_obj h.1 (MembersFit.readsBack h.2)

theorem ItemsFit.readsBack : ∀ {depth : Nat} {items : List Json}, ItemsFit depth items →
    ∀ i ∈ items, ReadsBack layout depth i
  | _, [], _ => List.forall_mem_nil _
  | _, _ :: _, h => List.forall_mem_cons.2 ⟨Fits.readsBack h.1, ItemsFit.readsBack h.2⟩

theorem MembersFit.readsBack : ∀ {depth : Nat} {members : List (String × Json)},
    MembersFit depth members → ∀ m ∈ members, ReadsBack layout depth m.2
  | _, [], _ => List.forall_mem_nil _
  | _, (_, _) :: _, h => List.forall_mem_cons.2 ⟨Fits.readsBack h.1, MembersFit.readsBack h.2⟩

end

/-- **A text is read back** in either layout. -/
theorem ofText?_write {j : Json} (h : j.Fits 128) : ofText? (String.ofList (write layout 0 j [])) = some j := by
  have hback : j.ReadsBack layout 128 := h.readsBack
  have hread := hback.read 0 (2 * (write layout 0 j []).length + 1) [] stops_nil (by omega)
  simp only [ofText?, String.toList_ofList, (hback.starts 0 []).skipBlanks_eq, hread,
    Option.bind_eq_bind, Option.bind_some]
  rfl

end Json

end StackScript
