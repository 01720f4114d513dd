import Mathlib
import PacketFec.Json.Printer
import PacketFec.Proofs.JsonGrammar

/-!
# What is written as JSON reads back

The writer puts a value over several lines, and each of its tokens and blanks is one that the grammar has. So the
written form is derived for the value, on a line of any level, and the reader gives the value back.

A value can be built that no text stands for: a numeral of letters, or a unit of more than 16 bits. And a control
character is written by its unit, which is what is read. The values apart from these are the *normal* ones.

* `Json.Normal`: the values that a written form stands for.
* `Json.derives_natural`: a number of any size, by its decimal digits.
* `Json.Normal.derives`: **the written form of a normal value is derived for it**, on a line of any level.
* `Json.parse_pretty`: **what is written reads back.**
-/

namespace PacketFec

variable {s t : List Char} {ps name : List Piece} {p : Piece} {v : Json} {n k : ℕ}

/-- A piece that is written as one that is read as itself. -/
def Piece.Normal : Piece → Prop
  | .char c => ' ' ≤ c ∨ c ∈ ['\n', '\r', '\t', '\x08', '\x0c']
  | .unit n => n < 65536

namespace Json

/-- A value that its written form stands for. -/
inductive Normal : Json → Prop
  | null : Normal .null
  | bool (b : Bool) : Normal (.bool b)
  | natural (n : ℕ) : Normal (.natural n)
  | numeral {text : List Char} (h : Derives text (.value (.numeral text))) : Normal (.numeral text)
  | string {ps : List Piece} (h : ∀ p ∈ ps, p.Normal) : Normal (.string ps)
  | array {items : List Json} (h : ∀ item ∈ items, Normal item) : Normal (.array items)
  | object {ms : List (List Piece × Json)} (hnames : ∀ m ∈ ms, ∀ p ∈ m.1, p.Normal) (h : ∀ m ∈ ms, Normal m.2) :
      Normal (.object ms)

/-! ### Numbers -/

theorem ofDigits_toDigits (n : ℕ) : ofDigits (Nat.toDigits 10 n) = n := by
  have h := Nat.ofDigitChars_toDigits (b := 10) (n := n) (by decide) le_rfl
  rwa [Nat.ofDigitChars_eq_foldl] at h

/-- Zero alone starts with a zero. -/
theorem head_toDigits (h : (Nat.toDigits 10 n).head? = some '0') : Nat.toDigits 10 n = ['0'] := by
  induction n using Nat.strongRecOn with
  | ind n ih =>
    rw [Nat.toDigits_eq_if (by decide)] at h ⊢
    split at h
    · rename_i hlt
      rw [if_pos hlt]
      exact congrArg (fun c => [c]) (Option.some.inj h)
    · rename_i hle
      have hne : Nat.toDigits 10 (n / 10) ≠ [] := Nat.toDigits_ne_nil
      rw [List.head?_append_of_ne_nil _ hne] at h
      have hzero := congrArg ofDigits (ih (n / 10) (by omega) h)
      rw [ofDigits_toDigits] at hzero
      have : ofDigits ['0'] = 0 := rfl
      omega

theorem whole_toDigits (n : ℕ) : Whole (Nat.toDigits 10 n) where
  ne_nil := Nat.toDigits_ne_nil
  isDigit := fun _ hc => Nat.isDigit_of_mem_toDigits (by decide) le_rfl hc
  alone := head_toDigits

/-- A number of any size is written by its digits. -/
theorem derives_natural (n : ℕ) : Derives (Nat.toDigits 10 n) (.value (.natural n)) := by
  have h := Derives.natural (whole_toDigits n)
  rwa [ofDigits_toDigits] at h

/-! ### Strings -/

theorem hexDigit?_digitChar (hk : k < 16) : hexDigit? (Nat.digitChar k) = some k := by
  have h : ∀ k : Fin 16, hexDigit? (Nat.digitChar k) = some k := by decide
  exact h ⟨k, hk⟩

/-- Four digits are read as the unit that they are written for. -/
theorem unit?_hexDigits (hn : n < 65536) : ∃ a b c d, hexDigits n = [a, b, c, d] ∧ unit? a b c d = some n := by
  refine ⟨_, _, _, _, rfl, ?_⟩
  rw [unit?, hexDigit?_digitChar (Nat.mod_lt _ (by decide)), hexDigit?_digitChar (Nat.mod_lt _ (by decide)),
    hexDigit?_digitChar (Nat.mod_lt _ (by decide)), hexDigit?_digitChar (Nat.mod_lt _ (by decide))]
  show some _ = some n
  congr 1
  omega

theorem spells_writtenPiece (hp : p.Normal) (hs : Spells s ps) : Spells (writtenPiece p ++ s) (p :: ps) := by
  unfold writtenPiece
  split
  iterate 7 exact .escape rfl hs
  · rename_i c hquote hslash hline hreturn htab hback hfeed
    have hraw : ' ' ≤ c := by
      rcases hp with hraw | hshort
      · exact hraw
      · simp at hshort
        rcases hshort with rfl | rfl | rfl | rfl | rfl <;> contradiction
    rw [if_neg (not_lt.2 hraw)]
    exact .raw hraw hquote hslash hs
  · rename_i n
    obtain ⟨a, b, c, d, hdigits, hunit⟩ := unit?_hexDigits hp
    rw [hdigits]
    exact .unit hunit hs

theorem spells_flatMap (h : ∀ p ∈ ps, p.Normal) : Spells (ps.flatMap writtenPiece) ps := by
  induction ps with
  | nil => exact .nil
  | cons p ps ih =>
    rw [List.flatMap_cons]
    exact spells_writtenPiece (h p List.mem_cons_self) (ih fun q hq => h q (List.mem_cons_of_mem p hq))

/-! ### Values -/

theorem blanks_newLine (level : ℕ) : Blanks (newLine level) := by
  intro c hc
  rcases List.mem_cons.1 hc with rfl | hc
  · rfl
  · rw [List.eq_of_mem_replicate hc]
    rfl

/-- The elements of an array, written one behind another. -/
theorem derives_writtenItems {item : Json} {items : List Json} (level outer : ℕ)
    (h : ∀ v ∈ item :: items, Derives (written level v) (.value v)) :
    Derives (written level item ++ writtenItems level items ++ newLine outer ++ [']']) (.elements (item :: items)) := by
  induction items generalizing item with
  | nil =>
    rw [writtenItems, List.append_nil]
    exact .lastElement (h item List.mem_cons_self) (blanks_newLine outer)
  | cons next items ih =>
    have hmore := ih fun v hv => h v (List.mem_cons_of_mem item hv)
    have hall := Derives.element (h item List.mem_cons_self) blanks_nil (blanks_newLine level) hmore
    rw [writtenItems]
    simpa using hall

/-- The members of an object, written one behind another. -/
theorem derives_writtenMembers {m : List Piece × Json} {ms : List (List Piece × Json)} (level outer : ℕ)
    (hnames : ∀ m' ∈ m :: ms, ∀ p ∈ m'.1, p.Normal)
    (h : ∀ m' ∈ m :: ms, Derives (written level m'.2) (.value m'.2)) :
    Derives (quoted m.1 ++ [':', ' '] ++ written level m.2 ++ writtenMembers level ms ++ newLine outer ++ ['\x7d'])
      (.members (m :: ms)) := by
  have hblank : Blanks [' '] := List.forall_mem_singleton.2 rfl
  induction ms generalizing m with
  | nil =>
    have hall := Derives.lastMember (spells_flatMap (hnames m List.mem_cons_self)) blanks_nil hblank
      (h m List.mem_cons_self) (blanks_newLine outer)
    rw [writtenMembers, quoted]
    simpa using hall
  | cons next ms ih =>
    have hmore := ih (fun m' hm' => hnames m' (List.mem_cons_of_mem m hm'))
      fun m' hm' => h m' (List.mem_cons_of_mem m hm')
    have hall := Derives.member (spells_flatMap (hnames m List.mem_cons_self)) blanks_nil hblank
      (h m List.mem_cons_self) blanks_nil (blanks_newLine level) hmore
    rw [writtenMembers, quoted]
    simpa using hall

/-- **The written form of a normal value is derived for it**, on a line of any level. -/
theorem Normal.derives (h : v.Normal) (level : ℕ) : Derives (written level v) (.value v) := by
  induction h generalizing level with
  | null => exact .null
  | bool b =>
    cases b with
    | true => exact .true
    | false => exact .false
  | natural n => exact derives_natural n
  | numeral h => exact h
  | string h => exact .string (spells_flatMap h)
  | @array items h ih =>
    cases items with
    | nil => exact .emptyArray blanks_nil
    | cons item items =>
      have hall := Derives.array (blanks_newLine (level + 1))
        (derives_writtenItems (level + 1) level fun v hv => ih v hv (level + 1))
      rw [written]
      simpa using hall
  | @object ms hnames h ih =>
    cases ms with
    | nil => exact .emptyObject blanks_nil
    | cons m ms =>
      have hall := Derives.object (blanks_newLine (level + 1))
        (derives_writtenMembers (level + 1) level hnames fun m' hm' => ih m' hm' (level + 1))
      obtain ⟨name, item⟩ := m
      rw [written]
      simpa using hall

/-- A written value is a whole text. -/
theorem Normal.textOf (h : v.Normal) : TextOf (pretty v).toList v := by
  have htext := TextOf.mk blanks_nil (h.derives 0) blanks_nil
  rwa [List.nil_append, List.append_nil, ← String.toList_ofList (l := written 0 v)] at htext

/-- **What is written reads back.** -/
theorem parse_pretty (h : v.Normal) : parse (pretty v).toList = some v := parse_of_textOf h.textOf

end Json

end PacketFec
