import Mathlib
import PacketFec.Json.Parser

/-!
# The grammar of JSON, and its reader

A text is read from the left, and each reader takes as much as it can. What the grammar derives is therefore read back
only where the text behind it does not go on with it. The one place where that can happen is a numeral: behind a value
there must not stand another digit, a point or the letter of an exponent. Behind a value of an array or an object
stands a blank, a comma or a bracket, so the condition travels down a derivation by itself.

Blanks may stand around each token. A reader begins behind them, at a character that is none, and skips those that
follow.

* `Json.Derives`: the grammar, for a value and for what stands between the brackets of an array or an object.
* `Json.Stops`: the texts that do not go on with a numeral.
* `Json.Derives.reads`: **what the grammar derives is read back**, with anything behind it that stops.
* `Json.parse_of_textOf`: **a whole text with blanks around its value.**
-/

namespace PacketFec.Json

variable {s t a b rest ds : List Char} {ps name : List Piece} {v : Json}

/-! ### The grammar -/

/-- Characters that may stand between tokens. -/
def Blanks (s : List Char) : Prop := ∀ c ∈ s, isBlank c = true

/-- One digit or more. -/
structure Digits (s : List Char) : Prop where
  ne_nil : s ≠ []
  isDigit : ∀ c ∈ s, c.isDigit = true

/-- The integer part of a numeral: digits that start with a zero only if there are no others. -/
structure Whole (s : List Char) : Prop extends Digits s where
  alone : s.head? = some '0' → s = ['0']

/-- The fraction of a numeral. -/
inductive Fraction : List Char → Prop
  | none : Fraction []
  | point {ds : List Char} (hds : Digits ds) : Fraction ('.' :: ds)

/-- The exponent of a numeral. -/
inductive Exponent : List Char → Prop
  | none : Exponent []
  | letter {e : Char} {sign ds : List Char} (he : e = 'e' ∨ e = 'E') (hsign : sign = [] ∨ sign = ['+'] ∨ sign = ['-'])
      (hds : Digits ds) : Exponent (e :: sign ++ ds)

/-- The parts of a numeral, apart from its sign. -/
structure Parts (whole fraction exponent : List Char) : Prop where
  whole : Whole whole
  fraction : Fraction fraction
  exponent : Exponent exponent

/-- The pieces of a string, by the characters between its quotes. -/
inductive Spells : List Char → List Piece → Prop
  | nil : Spells [] []
  | raw {c : Char} {s : List Char} {ps : List Piece} (hc : ' ' ≤ c) (hquote : c ≠ '"') (hslash : c ≠ '\\')
      (hs : Spells s ps) : Spells (c :: s) (.char c :: ps)
  | escape {e c : Char} {s : List Char} {ps : List Piece} (he : escaped? e = some c) (hs : Spells s ps) :
      Spells ('\\' :: e :: s) (.char c :: ps)
  | unit {a b c d : Char} {n : ℕ} {s : List Char} {ps : List Piece} (hn : unit? a b c d = some n) (hs : Spells s ps) :
      Spells ('\\' :: 'u' :: a :: b :: c :: d :: s) (.unit n :: ps)

/-- What a part of a text can stand for. -/
inductive Phrase where
  /-- A value. -/
  | value (v : Json)
  /-- The elements of an array, from the first one to the closing bracket. -/
  | elements (items : List Json)
  /-- The members of an object, from the first one to the closing brace. -/
  | members (ms : List (List Piece × Json))

/-- The grammar of RFC 8259. -/
inductive Derives : List Char → Phrase → Prop
  | null : Derives ['n', 'u', 'l', 'l'] (.value .null)
  | true : Derives ['t', 'r', 'u', 'e'] (.value (.bool true))
  | false : Derives ['f', 'a', 'l', 's', 'e'] (.value (.bool false))
  | natural {whole : List Char} (hw : Whole whole) : Derives whole (.value (.natural (ofDigits whole)))
  | numeral {whole fraction exponent : List Char} (h : Parts whole fraction exponent)
      (hne : ¬ (fraction = [] ∧ exponent = [])) :
      Derives (whole ++ fraction ++ exponent) (.value (.numeral (whole ++ fraction ++ exponent)))
  | negative {whole fraction exponent : List Char} (h : Parts whole fraction exponent) :
      Derives ('-' :: whole ++ fraction ++ exponent) (.value (.numeral ('-' :: whole ++ fraction ++ exponent)))
  | string {s : List Char} {ps : List Piece} (hs : Spells s ps) : Derives ('"' :: s ++ ['"']) (.value (.string ps))
  | emptyArray {a : List Char} (ha : Blanks a) : Derives ('[' :: a ++ [']']) (.value (.array []))
  | array {a s : List Char} {items : List Json} (ha : Blanks a) (hs : Derives s (.elements items)) :
      Derives ('[' :: a ++ s) (.value (.array items))
  | emptyObject {a : List Char} (ha : Blanks a) : Derives ('\x7b' :: a ++ ['\x7d']) (.value (.object []))
  | object {a s : List Char} {ms : List (List Piece × Json)} (ha : Blanks a) (hs : Derives s (.members ms)) :
      Derives ('\x7b' :: a ++ s) (.value (.object ms))
  | lastElement {s a : List Char} {v : Json} (hs : Derives s (.value v)) (ha : Blanks a) :
      Derives (s ++ a ++ [']']) (.elements [v])
  | element {s a b t : List Char} {v : Json} {items : List Json} (hs : Derives s (.value v)) (ha : Blanks a)
      (hb : Blanks b) (ht : Derives t (.elements items)) : Derives (s ++ a ++ ',' :: b ++ t) (.elements (v :: items))
  | lastMember {n s a b c : List Char} {name : List Piece} {v : Json} (hn : Spells n name) (ha : Blanks a)
      (hb : Blanks b) (hs : Derives s (.value v)) (hc : Blanks c) :
      Derives ('"' :: n ++ '"' :: a ++ ':' :: b ++ s ++ c ++ ['\x7d']) (.members [(name, v)])
  | member {n s a b c d t : List Char} {name : List Piece} {v : Json} {ms : List (List Piece × Json)}
      (hn : Spells n name) (ha : Blanks a) (hb : Blanks b) (hs : Derives s (.value v)) (hc : Blanks c) (hd : Blanks d)
      (ht : Derives t (.members ms)) :
      Derives ('"' :: n ++ '"' :: a ++ ':' :: b ++ s ++ c ++ ',' :: d ++ t) (.members ((name, v) :: ms))

/-- A whole text: a value with blanks around it. -/
inductive TextOf : List Char → Json → Prop
  | mk {a s b : List Char} {v : Json} (ha : Blanks a) (hs : Derives s (.value v)) (hb : Blanks b) :
      TextOf (a ++ s ++ b) v

/-! ### Blanks -/

theorem blanks_nil : Blanks [] := nofun

theorem skip_append (ha : Blanks a) (s : List Char) : skip (a ++ s) = skip s := by
  rw [skip, skip, List.dropWhile_append_of_pos ha]

theorem skip_cons {c : Char} (hc : isBlank c = false) (s : List Char) : skip (c :: s) = c :: s :=
  List.dropWhile_cons_of_neg (by simp [hc])

/-- Readers skip the blanks in front of a token. -/
theorem skip_token {c : Char} (ha : Blanks a) (hc : isBlank c = false) (s : List Char) : skip (a ++ c :: s) = c :: s := by
  rw [skip_append ha, skip_cons hc]

theorem skip_blanks (ha : Blanks a) : skip a = [] := List.dropWhile_eq_nil_iff.2 ha

/-- A text in front of which no numeral goes on. -/
def Stops (s : List Char) : Prop := ∀ c ∈ s.head?, c.isDigit = false ∧ c ≠ '.' ∧ c ≠ 'e' ∧ c ≠ 'E'

theorem stops_nil : Stops [] := nofun

theorem stops_cons {c : Char} (hc : c.isDigit = false ∧ c ≠ '.' ∧ c ≠ 'e' ∧ c ≠ 'E') (s : List Char) :
    Stops (c :: s) := by
  intro d hd
  obtain rfl := Option.some.inj hd
  exact hc

theorem stops_blank {c : Char} (hc : isBlank c = true) (s : List Char) : Stops (c :: s) := by
  simp only [isBlank, Bool.or_eq_true, decide_eq_true_eq] at hc
  apply stops_cons
  rcases hc with ((rfl | rfl) | rfl) | rfl <;> decide

/-- Blanks stop, and so they do not matter. -/
theorem stops_append (ha : Blanks a) (hs : Stops s) : Stops (a ++ s) := by
  cases a with
  | nil => exact hs
  | cons c a => exact stops_blank (ha c List.mem_cons_self) _

/-! ### Numerals -/

theorem digits_append (hds : ∀ c ∈ ds, c.isDigit = true) (hrest : ∀ c ∈ rest.head?, c.isDigit = false) :
    digits (ds ++ rest) = (ds, rest) := by
  have hstop : rest.takeWhile Char.isDigit = [] ∧ rest.dropWhile Char.isDigit = rest := by
    cases rest with
    | nil => exact ⟨rfl, rfl⟩
    | cons c rest => simp [hrest c rfl]
  rw [digits, List.takeWhile_append_of_pos hds, List.dropWhile_append_of_pos hds, hstop.1, hstop.2, List.append_nil]

theorem digits1_append (hds : Digits ds) (hrest : ∀ c ∈ rest.head?, c.isDigit = false) :
    digits1 (ds ++ rest) = some (ds, rest) := by
  rw [digits1, digits_append hds.isDigit hrest]
  simp [hds.ne_nil]

theorem integerPart_append (hds : Whole ds) (hrest : ∀ c ∈ rest.head?, c.isDigit = false) :
    integerPart (ds ++ rest) = some (ds, rest) := by
  rw [integerPart, digits1_append hds.toDigits hrest]
  simp only [Option.bind_eq_bind, Option.bind_some]
  rw [if_neg]
  · rfl
  · rintro ⟨hzero, hlen⟩
    exact hlen (congrArg List.length (hds.alone hzero))

theorem fractionPart_append {fraction : List Char} (hf : Fraction fraction)
    (hrest : ∀ c ∈ rest.head?, c.isDigit = false ∧ c ≠ '.') : fractionPart (fraction ++ rest) = some (fraction, rest) := by
  cases hf with
  | none =>
    rw [List.nil_append]
    unfold fractionPart
    split
    · exact absurd rfl (hrest '.' rfl).2
    · rfl
  | point hds =>
    rw [List.cons_append, fractionPart, digits1_append hds fun c hc => (hrest c hc).1]
    rfl

theorem exponentSign_append {sign : List Char} (hsign : sign = [] ∨ sign = ['+'] ∨ sign = ['-']) (hds : Digits ds) :
    exponentSign (sign ++ (ds ++ rest)) = (sign, ds ++ rest) := by
  obtain ⟨d, ds', rfl⟩ := List.exists_cons_of_ne_nil hds.ne_nil
  have hd := hds.isDigit d List.mem_cons_self
  rcases hsign with rfl | rfl | rfl
  · rw [List.nil_append, List.cons_append]
    unfold exponentSign
    split
    -- a digit is no sign
    · rename_i heq
      cases heq
      cases hd
    · rename_i heq
      cases heq
      cases hd
    · rfl
  · rfl
  · rfl

theorem exponentPart_append {exponent : List Char} (he : Exponent exponent) (hrest : Stops rest) :
    exponentPart (exponent ++ rest) = some (exponent, rest) := by
  cases he with
  | none =>
    cases rest with
    | nil => rfl
    | cons c rest =>
      obtain ⟨-, -, hlower, hupper⟩ := hrest c rfl
      rw [List.nil_append, exponentPart, if_neg (by simp [hlower, hupper])]
  | @letter e sign ds hletter hsign hds =>
    have hdigits := digits1_append hds fun c hc => (hrest c hc).1
    rw [List.cons_append, List.cons_append, List.append_assoc, exponentPart, if_pos hletter,
      exponentSign_append hsign hds]
    simp only [hdigits, Option.bind_eq_bind, Option.bind_some]
    rfl

/-- The parts of a numeral behind its integer part do not go on with what stands in front of them. -/
theorem head_exponent_append {exponent : List Char} (he : Exponent exponent) (hrest : Stops rest) :
    ∀ c ∈ (exponent ++ rest).head?, c.isDigit = false ∧ c ≠ '.' := by
  intro c hc
  cases he with
  | none => exact ⟨(hrest c hc).1, (hrest c hc).2.1⟩
  | letter hletter _ _ =>
    obtain rfl := Option.some.inj hc
    rcases hletter with rfl | rfl <;> decide

theorem head_fraction_append {fraction : List Char} (hf : Fraction fraction)
    (hrest : ∀ c ∈ rest.head?, c.isDigit = false ∧ c ≠ '.') : ∀ c ∈ (fraction ++ rest).head?, c.isDigit = false := by
  intro c hc
  cases hf with
  | none => exact (hrest c hc).1
  | point _ =>
    obtain rfl := Option.some.inj hc
    rfl

section Parts

variable {whole fraction exponent : List Char}

/-- The parts of a numeral at the front of a text, and the text behind. -/
def parts (s : List Char) : Option (List Char × List Char × List Char × List Char) := do
  let (whole, rest) ← integerPart s
  let (fraction, rest) ← fractionPart rest
  let (exponent, rest) ← exponentPart rest
  return (whole, fraction, exponent, rest)

/-- A numeral without a sign is put together from its parts. -/
theorem unsigned_eq (s : List Char) : unsigned s = (parts s).map fun (whole, fraction, exponent, rest) =>
    (if fraction = [] ∧ exponent = [] then .natural (ofDigits whole) else .numeral (whole ++ fraction ++ exponent),
      rest) := by
  rw [unsigned, parts]
  rcases integerPart s with _ | ⟨whole, s⟩
  · rfl
  simp only [Option.bind_eq_bind, Option.bind_some]
  rcases fractionPart s with _ | ⟨fraction, s⟩
  · rfl
  simp only [Option.bind_some]
  rcases exponentPart s with _ | ⟨exponent, s⟩
  · rfl
  simp only [Option.bind_some, Option.pure_def, Option.map_some, List.isEmpty_iff]
  by_cases hnone : fraction = [] ∧ exponent = []
  · rw [if_pos hnone, if_pos hnone]
  · rw [if_neg hnone, if_neg hnone]

/-- So is one with a sign. -/
theorem negative_eq (s : List Char) : negative s = (parts s).map fun (whole, fraction, exponent, rest) =>
    (.numeral ('-' :: whole ++ fraction ++ exponent), rest) := by
  simp only [negative, parts, Option.bind_eq_bind, Option.map_bind, Function.comp_def]
  rfl

theorem parts_append (h : Parts whole fraction exponent) (hrest : Stops rest) :
    parts (whole ++ fraction ++ exponent ++ rest) = some (whole, fraction, exponent, rest) := by
  have hhead := head_exponent_append h.exponent hrest
  rw [List.append_assoc, List.append_assoc, parts,
    integerPart_append h.whole (head_fraction_append h.fraction hhead)]
  simp only [Option.bind_eq_bind, Option.bind_some, fractionPart_append h.fraction hhead,
    exponentPart_append h.exponent hrest]
  rfl

theorem unsigned_append (h : Parts whole fraction exponent) (hrest : Stops rest) :
    unsigned (whole ++ fraction ++ exponent ++ rest) =
      some (if fraction = [] ∧ exponent = [] then .natural (ofDigits whole)
        else .numeral (whole ++ fraction ++ exponent), rest) := by
  rw [unsigned_eq, parts_append h hrest, Option.map_some]

theorem negative_append (h : Parts whole fraction exponent) (hrest : Stops rest) :
    negative (whole ++ fraction ++ exponent ++ rest) =
      some (.numeral ('-' :: whole ++ fraction ++ exponent), rest) := by
  rw [negative_eq, parts_append h hrest, Option.map_some]

end Parts

/-! ### Strings -/

theorem pieces_append (h : Spells s ps) (rest : List Char) : pieces (s ++ '"' :: rest) = some (ps, rest) := by
  induction h with
  | nil => rfl
  | raw hc hquote hslash hs ih =>
    have hlow : ¬ (_ < ' ' ∨ _ = '\\') := not_or.2 ⟨not_lt.2 hc, hslash⟩
    rw [List.cons_append, pieces.eq_5 _ _ (by simpa using hquote) (by simp [hslash]) (by simp [hslash]), if_neg hlow, ih]
    rfl
  | @escape e c s ps he hs ih =>
    have hnot : e ≠ 'u' := by
      rintro rfl
      cases he
    rw [List.cons_append, List.cons_append, pieces.eq_4 _ _ (by simp [hnot]), he, Option.bind_eq_bind,
      Option.bind_some, ih]
    rfl
  | unit hn hs ih =>
    simp only [List.cons_append, pieces, hn, ih]
    rfl

/-! ### Phrases -/

/-- A character that begins a value or a member. -/
structure Begins (c : Char) : Prop where
  not_blank : isBlank c = false
  ne_bracket : c ≠ ']'
  ne_brace : c ≠ '\x7d'

theorem begins_of_isDigit {c : Char} (hc : c.isDigit = true) : Begins c := by
  refine ⟨?_, ?_, ?_⟩
  · by_contra hblank
    simp only [isBlank, Bool.not_eq_false, Bool.or_eq_true, decide_eq_true_eq] at hblank
    rcases hblank with ((rfl | rfl) | rfl) | rfl <;> cases hc
  · rintro rfl
    cases hc
  · rintro rfl
    cases hc

/-- A whole number begins with a digit. -/
theorem Whole.begins {whole : List Char} (h : Whole whole) : ∃ c t, whole = c :: t ∧ c.isDigit = true := by
  obtain ⟨c, t, rfl⟩ := List.exists_cons_of_ne_nil h.ne_nil
  exact ⟨c, t, rfl, h.isDigit c List.mem_cons_self⟩

/-- A phrase begins with a character that readers tell from a blank and from an end. -/
theorem Derives.begins {p : Phrase} (h : Derives s p) : ∃ c t, s = c :: t ∧ Begins c := by
  induction h with
  | null | true | false | string | negative | emptyArray | array | emptyObject | object | lastMember | member =>
    exact ⟨_, _, rfl, by decide, by decide, by decide⟩
  | natural hw =>
    obtain ⟨c, t, rfl, hc⟩ := hw.begins
    exact ⟨c, t, rfl, begins_of_isDigit hc⟩
  | numeral h _ =>
    obtain ⟨c, t, rfl, hc⟩ := h.whole.begins
    exact ⟨c, _, rfl, begins_of_isDigit hc⟩
  | lastElement _ _ ih | element _ _ _ _ ih _ =>
    obtain ⟨c, t, rfl, hc⟩ := ih
    exact ⟨c, _, rfl, hc⟩

/-- What a reader gives on a text that begins with a phrase. -/
def Phrase.Reads (fuel : ℕ) (s rest : List Char) : Phrase → Prop
  | .value v => Json.value fuel (s ++ rest) = some (v, rest)
  | .elements items => Json.elements fuel (s ++ rest) = some (items, rest)
  | .members ms => Json.members fuel (s ++ rest) = some (ms, rest)

/-- Readers skip the blanks in front of a phrase. -/
theorem Derives.skip_append {p : Phrase} (h : Derives s p) (ha : Blanks a) (rest : List Char) :
    skip (a ++ (s ++ rest)) = s ++ rest := by
  obtain ⟨c, t, rfl, hc⟩ := h.begins
  rw [Json.skip_append ha, List.cons_append, skip_cons hc.not_blank]

theorem value_of_isDigit {c : Char} (hc : c.isDigit = true) (fuel : ℕ) (s : List Char) :
    value (fuel + 1) (c :: s) = unsigned (c :: s) := by
  have hne : ∀ d : Char, d.isDigit = false → c ≠ d := by
    rintro d hd rfl
    rw [hc] at hd
    cases hd
  apply value.eq_9
  all_goals
    intro rest heq
    exact hne _ (by rfl) (List.cons.inj heq).1

/-- The reader of an array, behind the bracket. -/
theorem value_array {items : List Json} {fuel : ℕ} (ha : Blanks a) (hs : Derives s (.elements items))
    (hread : elements fuel (s ++ rest) = some (items, rest)) :
    value (fuel + 1) ('[' :: a ++ s ++ rest) = some (.array items, rest) := by
  have hskip := hs.skip_append ha rest
  obtain ⟨c, t, rfl, hc⟩ := hs.begins
  rw [List.cons_append, List.cons_append, List.append_assoc, value.eq_7, hskip]
  rw [List.cons_append] at hread ⊢
  split
  · rename_i heq
    exact absurd (List.cons.inj heq).1 hc.ne_bracket
  · rw [hread]
    rfl

/-- The reader of an object, behind the brace. -/
theorem value_object {ms : List (List Piece × Json)} {fuel : ℕ} (ha : Blanks a) (hs : Derives s (.members ms))
    (hread : members fuel (s ++ rest) = some (ms, rest)) :
    value (fuel + 1) ('\x7b' :: a ++ s ++ rest) = some (.object ms, rest) := by
  have hskip := hs.skip_append ha rest
  obtain ⟨c, t, rfl, hc⟩ := hs.begins
  rw [List.cons_append, List.cons_append, List.append_assoc, value.eq_8, hskip]
  rw [List.cons_append] at hread ⊢
  split
  · rename_i heq
    exact absurd (List.cons.inj heq).1 hc.ne_brace
  · rw [hread]
    rfl

section Sequences

variable {c d : List Char} {items : List Json} {ms : List (List Piece × Json)} {fuel : ℕ}

/-- Behind the last element, the reader finds the bracket. -/
theorem elements_last (ha : Blanks a)
    (hread : value fuel (s ++ (a ++ ']' :: rest)) = some (v, a ++ ']' :: rest)) :
    elements (fuel + 1) (s ++ a ++ [']'] ++ rest) = some ([v], rest) := by
  have hskip : skip (a ++ ']' :: rest) = ']' :: rest := skip_token ha (by decide) rest
  rw [List.append_assoc, List.append_assoc, List.singleton_append, elements.eq_2, hread]
  simp only [Option.bind_eq_bind, Option.bind_some, hskip]
  rfl

/-- Behind any other element, the reader finds a comma and more elements. -/
theorem elements_more (ha : Blanks a) (hb : Blanks b) (ht : Derives t (.elements items))
    (hread : value fuel (s ++ (a ++ ',' :: (b ++ (t ++ rest)))) = some (v, a ++ ',' :: (b ++ (t ++ rest))))
    (hmore : elements fuel (t ++ rest) = some (items, rest)) :
    elements (fuel + 1) (s ++ a ++ ',' :: b ++ t ++ rest) = some (v :: items, rest) := by
  have hskip : skip (a ++ ',' :: (b ++ (t ++ rest))) = ',' :: (b ++ (t ++ rest)) := skip_token ha (by decide) _
  have htext : s ++ a ++ ',' :: b ++ t ++ rest = s ++ (a ++ ',' :: (b ++ (t ++ rest))) := by simp
  rw [htext, elements.eq_2, hread]
  simp only [Option.bind_eq_bind, Option.bind_some, hskip, ht.skip_append hb rest, hmore]
  rfl

/-- A member up to its value, and what the reader does by the character behind it. -/
theorem members_name {n : List Char} (hn : Spells n name) (ha : Blanks a) (hb : Blanks b) (hs : Derives s (.value v))
    (hread : value fuel (s ++ t) = some (v, t)) :
    (skip t = '\x7d' :: rest →
      members (fuel + 1) ('"' :: n ++ '"' :: a ++ ':' :: b ++ s ++ t) = some ([(name, v)], rest)) ∧
    ∀ ms behind, skip t = ',' :: rest → members fuel (skip rest) = some (ms, behind) →
      members (fuel + 1) ('"' :: n ++ '"' :: a ++ ':' :: b ++ s ++ t) = some ((name, v) :: ms, behind) := by
  have hskip : skip (a ++ ':' :: (b ++ (s ++ t))) = ':' :: (b ++ (s ++ t)) := skip_token ha (by decide) _
  have htext : '"' :: n ++ '"' :: a ++ ':' :: b ++ s ++ t = '"' :: (n ++ '"' :: (a ++ ':' :: (b ++ (s ++ t)))) := by
    simp
  rw [htext, members.eq_2, pieces_append hn]
  simp only [Option.bind_eq_bind, Option.bind_some, hskip, hs.skip_append hb t, hread]
  constructor
  · intro hbrace
    simp only [hbrace]
    rfl
  · intro ms behind hcomma hmore
    simp only [hcomma, hmore]
    rfl

/-- Behind the last member, the reader finds the brace. -/
theorem members_last {n : List Char} (hn : Spells n name) (ha : Blanks a) (hb : Blanks b) (hs : Derives s (.value v))
    (hc : Blanks c) (hread : value fuel (s ++ (c ++ '\x7d' :: rest)) = some (v, c ++ '\x7d' :: rest)) :
    members (fuel + 1) ('"' :: n ++ '"' :: a ++ ':' :: b ++ s ++ c ++ ['\x7d'] ++ rest) =
      some ([(name, v)], rest) := by
  rw [List.append_assoc, List.append_assoc, List.singleton_append]
  exact (members_name hn ha hb hs hread).1 (skip_token hc (by decide) rest)

/-- Behind any other member, the reader finds a comma and more members. -/
theorem members_more {n : List Char} (hn : Spells n name) (ha : Blanks a) (hb : Blanks b) (hs : Derives s (.value v))
    (hc : Blanks c) (hd : Blanks d) (ht : Derives t (.members ms))
    (hread : value fuel (s ++ (c ++ ',' :: (d ++ (t ++ rest)))) = some (v, c ++ ',' :: (d ++ (t ++ rest))))
    (hmore : members fuel (t ++ rest) = some (ms, rest)) :
    members (fuel + 1) ('"' :: n ++ '"' :: a ++ ':' :: b ++ s ++ c ++ ',' :: d ++ t ++ rest) =
      some ((name, v) :: ms, rest) := by
  have hskip : skip (c ++ ',' :: (d ++ (t ++ rest))) = ',' :: (d ++ (t ++ rest)) := skip_token hc (by decide) _
  have htext : '"' :: n ++ '"' :: a ++ ':' :: b ++ s ++ c ++ ',' :: d ++ t ++ rest =
      '"' :: n ++ '"' :: a ++ ':' :: b ++ s ++ (c ++ ',' :: (d ++ (t ++ rest))) := by simp
  rw [htext]
  exact (members_name hn ha hb hs hread).2 ms rest hskip (by rw [ht.skip_append hd rest, hmore])

end Sequences

/-- **What the grammar derives is read back**, with anything behind it that does not go on with a numeral. One unit of
fuel for each character is enough. -/
theorem Derives.reads {p : Phrase} (h : Derives s p) {fuel : ℕ} (hfuel : s.length < fuel) (hrest : Stops rest) :
    p.Reads fuel s rest := by
  -- a reader hands on one unit of fuel less, and what it hands on is shorter than the phrase by a token at least
  induction h generalizing fuel rest with
    obtain ⟨fuel, rfl⟩ := Nat.exists_eq_succ_of_ne_zero (Nat.ne_zero_of_lt hfuel)
  | null | true | false =>
    rfl
  | string hs =>
    rw [Phrase.Reads, List.cons_append, List.cons_append, List.append_assoc, value.eq_5, List.singleton_append,
      pieces_append hs]
    rfl
  | @natural whole hw =>
    have hread := unsigned_append ⟨hw, .none, .none⟩ hrest
    rw [List.append_nil, List.append_nil, if_pos ⟨rfl, rfl⟩] at hread
    obtain ⟨c, t, rfl, hc⟩ := hw.begins
    exact (value_of_isDigit hc fuel _).trans hread
  | numeral h hne =>
    have hread := unsigned_append h hrest
    rw [if_neg hne] at hread
    obtain ⟨c, t, hwhole, hc⟩ := h.whole.begins
    rw [hwhole] at hread ⊢
    exact (value_of_isDigit hc fuel _).trans hread
  | negative h => exact negative_append h hrest
  | emptyArray ha =>
    rw [Phrase.Reads, List.cons_append, List.cons_append, List.append_assoc, value.eq_7, Json.skip_append ha]
    rfl
  | emptyObject ha =>
    rw [Phrase.Reads, List.cons_append, List.cons_append, List.append_assoc, value.eq_8, Json.skip_append ha]
    rfl
  | array ha hs ih =>
    refine value_array ha hs (ih ?_ hrest)
    simp only [List.length_append, List.length_cons] at hfuel
    omega
  | object ha hs ih =>
    refine value_object ha hs (ih ?_ hrest)
    simp only [List.length_append, List.length_cons] at hfuel
    omega
  | @lastElement s a v hs ha ih =>
    simp only [List.length_append, List.length_cons] at hfuel
    exact elements_last ha (ih (by omega) (stops_append ha (stops_cons (by decide) rest)))
  | element hs ha hb ht ihs iht =>
    simp only [List.length_append, List.length_cons] at hfuel
    exact elements_more ha hb ht (ihs (by omega) (stops_append ha (stops_cons (by decide) _))) (iht (by omega) hrest)
  | lastMember hn ha hb hs hc ih =>
    simp only [List.length_append, List.length_cons] at hfuel
    exact members_last hn ha hb hs hc (ih (by omega) (stops_append hc (stops_cons (by decide) rest)))
  | member hn ha hb hs hc hd ht ihs iht =>
    simp only [List.length_append, List.length_cons] at hfuel
    exact members_more hn ha hb hs hc hd ht (ihs (by omega) (stops_append hc (stops_cons (by decide) _)))
      (iht (by omega) hrest)

/-- **A whole text is read as the value in it**, with blanks around. -/
theorem parse_of_textOf (h : TextOf s v) : parse s = some v := by
  obtain ⟨ha, hs, hb⟩ := h
  rename_i a s b
  have hfuel : s.length < (a ++ s ++ b).length + 1 := by
    simp only [List.length_append]
    omega
  have hread : value ((a ++ s ++ b).length + 1) (s ++ b) = some (v, b) :=
    hs.reads hfuel (by simpa using stops_append hb stops_nil)
  rw [parse, List.append_assoc, hs.skip_append ha b, ← List.append_assoc, hread]
  simp only [skip_blanks hb, List.isEmpty_nil, if_true]

end PacketFec.Json
