import Mathlib
import PacketFec.CommandLine.Output
import PacketFec.Proofs.JsonAcceptance
import PacketFec.Proofs.JsonWriting
import PacketFec.Proofs.Validation

/-!
# Configuration files, written and read

A configuration is an object with a number in each of four fields. In a file the members may stand in any order, fields
may be left out, and members with other names are passed over, whatever their values are. What is asked of a name is
that it is a text at all, and a field may not occur twice.

* `Json.called`, `Json.Gives`: the values under a name, and the number that a field gives.
* `Config.ofJson?_object_iff`: **the objects that describe a configuration.**
* `Config.ofText?_pretty`: a configuration is read from the text that is written for it.
* `Config.text_round_trip`: **what is written is read back**, and what any other object is read as.
-/

namespace PacketFec

variable {ms : List (List Piece × Json)} {name : String} {given : Option ℕ} {n : ℕ}

/-! ### Names -/

/-- A text without escapes spells itself. -/
theorem Piece.text?_ofText (s : String) : Piece.text? (Piece.ofText s) = some s.toList := by
  rw [Piece.ofText]
  induction s.toList with
  | nil => rfl
  | cons c cs ih => rw [List.map_cons, Piece.text?, ih, Option.map_some]

namespace Json

/-- The values of the members that have a name. -/
def called (ms : List (List Piece × Json)) (name : String) : List Json :=
  (ms.filter fun m => Piece.text? m.1 = some name.toList).map Prod.snd

/-- All names are texts. -/
def Named (ms : List (List Piece × Json)) : Prop := ∀ m ∈ ms, ∃ text, Piece.text? m.1 = some text

/-- The members give a number of 64 bits under a name, once, or nothing. -/
structure Gives (ms : List (List Piece × Json)) (name : String) (given : Option ℕ) : Prop where
  called_eq : called ms name = (given.map Json.natural).toList
  lt : ∀ n ∈ given, n < wordLimit

/-- The number that is given under a name, if there is one. -/
def number? (ms : List (List Piece × Json)) (name : String) : Option ℕ := (called ms name).head?.bind count?

/-- What is given under a name is determined by the members. -/
theorem Gives.eq (h : Gives ms name given) : given = number? ms name := by
  rw [number?, h.called_eq]
  cases given with
  | none => rfl
  | some n => exact (count?_eq_some_iff.2 ⟨rfl, h.lt n rfl⟩).symm

/-- Members whose names have been spelled out. -/
def Spelled (ms : List (List Piece × Json)) (members : List (List Char × Json)) : Prop :=
  List.Forall₂ (fun m m' => Piece.text? m.1 = some m'.1 ∧ m.2 = m'.2) ms members

theorem named?_eq_some_iff {members : List (List Char × Json)} : named? ms = some members ↔ Spelled ms members := by
  rw [named?, mapM_eq_some_iff, Spelled]
  have hentry : ∀ (m : List Piece × Json) (m' : List Char × Json),
      (Piece.text? m.1).map (fun name => (name, m.2)) = some m' ↔ Piece.text? m.1 = some m'.1 ∧ m.2 = m'.2 := by
    rintro ⟨name, v⟩ ⟨name', v'⟩
    rw [Option.map_eq_some_iff]
    constructor
    · rintro ⟨text, htext, heq⟩
      obtain ⟨rfl, rfl⟩ := Prod.mk.inj heq
      exact ⟨htext, rfl⟩
    · rintro ⟨htext, rfl⟩
      exact ⟨name', htext, rfl⟩
  simp only [hentry]

/-- Names can be spelled out where all of them are texts. -/
theorem exists_spelled_iff : (∃ members, Spelled ms members) ↔ Named ms := by
  constructor
  · rintro ⟨members, h⟩
    induction h with
    | nil => exact nofun
    | cons hm _ ih => exact List.forall_mem_cons.2 ⟨⟨_, hm.1⟩, ih⟩
  · intro h
    induction ms with
    | nil => exact ⟨[], .nil⟩
    | cons m ms ih =>
      obtain ⟨⟨text, htext⟩, hrest⟩ := List.forall_mem_cons.1 h
      obtain ⟨members, hmembers⟩ := ih hrest
      exact ⟨(text, m.2) :: members, .cons ⟨htext, rfl⟩ hmembers⟩

/-- Spelling out changes no value. -/
theorem Spelled.called_eq {members : List (List Char × Json)} (h : Spelled ms members) (name : String) :
    (members.filter fun m => m.1 = name.toList).map Prod.snd = called ms name := by
  rw [called]
  induction h with
  | nil => rfl
  | @cons m m' ms members hm _ ih =>
    obtain ⟨htext, hv⟩ := hm
    by_cases hname : m'.1 = name.toList
    · rw [List.filter_cons_of_pos (by simpa using hname), List.filter_cons_of_pos (by simp [htext, hname]),
        List.map_cons, List.map_cons, ih, hv]
    · rw [List.filter_cons_of_neg (by simpa using hname), List.filter_cons_of_neg (by simp [htext, hname]), ih]

/-- **What a record with named fields gives.** -/
theorem record?_object_iff {names : List String} {counts : List (Option ℕ)} :
    record? names (.object ms) = some counts ↔ Named ms ∧ List.Forall₂ (Gives ms) names counts := by
  have hfield {members : List (List Char × Json)} (h : Spelled ms members) (name : String) (given : Option ℕ) :
      field? members name = some given ↔ Gives ms name given := by
    rw [field?_eq_some_iff, h.called_eq]
    exact ⟨fun ⟨hcalled, hlt⟩ => ⟨hcalled, hlt⟩, fun ⟨hcalled, hlt⟩ => ⟨hcalled, hlt⟩⟩
  simp only [record?, Option.bind_eq_bind, Option.bind_eq_some_iff, named?_eq_some_iff, mapM_eq_some_iff,
    ← exists_spelled_iff]
  constructor
  · rintro ⟨members, hspelled, hall⟩
    exact ⟨⟨members, hspelled⟩, hall.imp fun name given h => (hfield hspelled name given).1 h⟩
  · rintro ⟨⟨members, hspelled⟩, hall⟩
    exact ⟨members, hspelled, hall.imp fun name given h => (hfield hspelled name given).2 h⟩

/-! ### Members in any order -/

/-- Members with plain names and numbers. -/
def numbers (entries : List (String × ℕ)) : List (List Piece × Json) :=
  entries.map fun f => (Piece.ofText f.1, .natural f.2)

/-- Some fields with a number each, every one of them once, and members of other names, all in any order. -/
structure Holds (names : List String) (ms : List (List Piece × Json)) (entries : List (String × ℕ)) : Prop where
  once : (entries.map Prod.fst).Nodup
  lt : ∀ f ∈ entries, f.2 < wordLimit
  others : ∃ unknown, ms.Perm (numbers entries ++ unknown) ∧
    ∀ m ∈ unknown, ∃ text, Piece.text? m.1 = some text ∧ ∀ name ∈ names, text ≠ name.toList

variable {names : List String} {entries : List (String × ℕ)}

theorem called_numbers (entries : List (String × ℕ)) (name : String) :
    called (numbers entries) name = ((entries.filter fun f => f.1 = name).map Prod.snd).map Json.natural := by
  rw [called, numbers, List.filter_map, List.map_map, List.map_map]
  congr 1
  refine List.filter_congr fun f _ => ?_
  simp [Piece.text?_ofText, String.toList_inj]

/-- In a list without a repeated name, looking up finds all that a name has. -/
theorem filter_eq_lookup (h : (entries.map Prod.fst).Nodup) :
    (entries.filter fun f => f.1 = name).map Prod.snd = (entries.lookup name).toList := by
  induction entries with
  | nil => rfl
  | cons f entries ih =>
    obtain ⟨first, n⟩ := f
    obtain ⟨hfresh, hrest⟩ := List.nodup_cons.1 h
    by_cases hname : first = name
    · subst hname
      have hnone : entries.filter (fun f => f.1 = first) = [] := by
        rw [List.filter_eq_nil_iff]
        intro f hf hfirst
        rw [decide_eq_true_eq] at hfirst
        exact hfresh (List.mem_map.2 ⟨f, hf, hfirst⟩)
      rw [List.filter_cons_of_pos (by simp), hnone, List.lookup_cons_self]
      rfl
    · have hbeq : (name == first) = false := by simpa using Ne.symm hname
      rw [List.filter_cons_of_neg (by simpa using hname), ih hrest, List.lookup_cons, hbeq]

theorem named_numbers (entries : List (String × ℕ)) : Named (numbers entries) := by
  intro m hm
  obtain ⟨f, -, rfl⟩ := List.mem_map.1 hm
  exact ⟨_, Piece.text?_ofText f.1⟩

theorem Holds.named (h : Holds names ms entries) : Named ms := by
  obtain ⟨unknown, hperm, hunknown⟩ := h.others
  intro m hm
  rcases List.mem_append.1 (hperm.mem_iff.1 hm) with hm | hm
  · exact named_numbers entries m hm
  · obtain ⟨text, htext, -⟩ := hunknown m hm
    exact ⟨text, htext⟩

/-- **The order of the members does not matter, and others are passed over.** -/
theorem Holds.gives (h : Holds names ms entries) (hname : name ∈ names) : Gives ms name (entries.lookup name) := by
  obtain ⟨unknown, hperm, hunknown⟩ := h.others
  have hfound : (entries.filter fun f => f.1 = name).map Prod.snd = (entries.lookup name).toList :=
    filter_eq_lookup h.once
  have hnone : called unknown name = [] := by
    rw [called, List.map_eq_nil_iff, List.filter_eq_nil_iff]
    intro m hm heq
    obtain ⟨text, htext, hne⟩ := hunknown m hm
    rw [decide_eq_true_eq, htext] at heq
    exact hne name hname (Option.some.inj heq)
  have hcalled : called (numbers entries ++ unknown) name = ((entries.lookup name).map Json.natural).toList := by
    rw [called, List.filter_append, List.map_append, ← called, ← called, hnone, List.append_nil, called_numbers, hfound]
    cases entries.lookup name <;> rfl
  constructor
  · have hsame : (called ms name).Perm (called (numbers entries ++ unknown) name) := (hperm.filter _).map _
    rw [hcalled] at hsame
    cases hlookup : entries.lookup name with
    | none =>
      rw [hlookup] at hsame
      exact hsame.eq_nil
    | some n =>
      rw [hlookup] at hsame
      exact hsame.eq_singleton
  · intro n hn
    rw [Option.mem_def.1 hn, Option.toList_some] at hfound
    obtain ⟨f, hf, rfl⟩ := List.mem_map.1 (hfound ▸ List.mem_singleton_self n)
    exact h.lt f (List.mem_of_mem_filter hf)

end Json

namespace Config

open Json (Named Gives called)

variable {c : Config}

/-- The configuration of what is given in the four fields. Where nothing is given, the standard value stands. -/
def filled (given : String → Option ℕ) : Config where
  geometry := ⟨(given "data_shards").getD 10, (given "parity_shards").getD 3⟩
  headerOffset := (given "header_offset").getD 0
  staleness := (given "staleness_ms").getD 500

/-- **The objects that describe a configuration.** -/
theorem ofJson?_object_iff : ofJson? (.object ms) = some c ↔
    Named ms ∧ ∃ given : String → Option ℕ, (∀ name ∈ fieldNames, Gives ms name (given name)) ∧ c = filled given := by
  rw [ofJson?]
  simp only [Option.bind_eq_bind, Option.bind_eq_some_iff, Json.record?_object_iff]
  constructor
  · rintro ⟨counts, ⟨hnamed, hall⟩, hc⟩
    simp only [fieldNames, List.forall₂_cons_left_iff, List.forall₂_nil_left_iff] at hall
    obtain ⟨data, _, hdata, ⟨parity, _, hparity, ⟨offset, _, hoffset, ⟨staleness, _, hstaleness, rfl, rfl⟩, rfl⟩, rfl⟩,
      rfl⟩ := hall
    obtain rfl := Option.some.inj hc
    refine ⟨hnamed, Json.number? ms, ?_, ?_⟩
    · simp only [fieldNames, List.forall_mem_cons]
      exact ⟨hdata.eq ▸ hdata, hparity.eq ▸ hparity, hoffset.eq ▸ hoffset, hstaleness.eq ▸ hstaleness, nofun⟩
    · rw [filled, ← hdata.eq, ← hparity.eq, ← hoffset.eq, ← hstaleness.eq]
      rfl
  · rintro ⟨hnamed, given, hgives, rfl⟩
    refine ⟨fieldNames.map given, ⟨hnamed, ?_⟩, rfl⟩
    rw [List.forall₂_map_right_iff, List.forall₂_same]
    exact hgives

/-- Two members with the name of one field are refused. -/
theorem ofJson?_of_twice (hname : name ∈ fieldNames) (htwice : 2 ≤ (called ms name).length) :
    ofJson? (.object ms) = none := by
  rw [Option.eq_none_iff_forall_ne_some]
  intro c hc
  obtain ⟨-, given, hgives, -⟩ := ofJson?_object_iff.1 hc
  rw [(hgives name hname).called_eq] at htwice
  cases hgiven : given name <;> simp [hgiven] at htwice

/-- An object of fields in any order, and of other members. -/
theorem ofJson?_of_holds {entries : List (String × ℕ)} (h : Json.Holds fieldNames ms entries) :
    ofJson? (.object ms) = some (filled fun name => entries.lookup name) :=
  ofJson?_object_iff.2 ⟨h.named, _, fun _ hname => h.gives hname, rfl⟩

/-! ### Texts -/

/-- The fields of a configuration and their numbers. -/
def fields (c : Config) : List (String × ℕ) :=
  [("data_shards", c.geometry.data), ("parity_shards", c.geometry.parity), ("header_offset", c.headerOffset),
    ("staleness_ms", c.staleness)]

theorem toJson_eq (c : Config) : c.toJson = .object (Json.numbers c.fields) := rfl

/-- A configuration that is written holds its numbers. -/
theorem Fits.holds (h : c.Fits) : Json.Holds fieldNames (Json.numbers c.fields) c.fields where
  once := by
    show ["data_shards", "parity_shards", "header_offset", "staleness_ms"].Nodup
    decide
  lt := by
    simp only [fields, List.forall_mem_cons]
    exact ⟨h.data_lt, h.parity_lt, h.offset_lt, h.staleness_lt, nofun⟩
  others := ⟨[], by rw [List.append_nil], nofun⟩

theorem normal_toJson (c : Config) : c.toJson.Normal := by
  have hplain : ∀ f ∈ c.fields, ∀ char ∈ f.1.toList, ' ' ≤ char := by
    simp only [fields, List.forall_mem_cons]
    exact ⟨by simp, by simp, by simp, by simp, nofun⟩
  rw [toJson_eq]
  refine .object ?_ ?_
  · intro m hm p hp
    obtain ⟨f, hf, rfl⟩ := List.mem_map.1 hm
    obtain ⟨char, hchar, rfl⟩ := List.mem_map.1 hp
    exact .inl (hplain f hf char hchar)
  · intro m hm
    obtain ⟨f, -, rfl⟩ := List.mem_map.1 hm
    exact .natural f.2

/-- **A configuration is read from the text that is written for it.** -/
theorem ofText?_pretty (h : c.Fits) : ofText? c.toJson.pretty = some c := by
  rw [ofText?, Json.parse_pretty c.normal_toJson, Option.bind_some, toJson_eq, ofJson?_of_holds h.holds]
  rfl

/-- A file with the text of a valid configuration is read as that configuration. -/
theorem load_pretty (h : c.Fits) (hvalid : c.validate = .ok ()) (path : String) :
    load path (some c.toJson.pretty.toUTF8) = .ok c := by
  have hutf8 : String.fromUTF8? c.toJson.pretty.toUTF8 = some c.toJson.pretty := by
    rw [String.toUTF8_eq_toByteArray]
    exact dif_pos c.toJson.pretty.isValidUTF8
  rw [load, Option.bind_some, hutf8]
  simp only [ofText?_pretty h, hvalid]

/-- Showing a valid configuration ends with its text. -/
theorem exists_lines_eq (hvalid : c.validate = .ok ()) :
    ∃ lines, c.lines = .ok lines ∧ c.toJson.pretty.splitOn "\n" <:+ lines := by
  have hg := (validate_eq_ok_iff.1 hvalid).geometry
  rw [lines, Geometry.size_eq hg, Geometry.paws_eq hg, Geometry.groupCount_eq hg]
  exact ⟨_, rfl, List.suffix_append _ _⟩

/-- Reading a text is reading the value that it stands for. -/
theorem ofText?_of_textOf {text : String} {v : Json} (h : Json.TextOf text.toList v) : ofText? text = ofJson? v := by
  rw [ofText?, Json.parse_of_textOf h, Option.bind_some]

/-- What is no text of JSON describes no configuration. -/
theorem ofText?_of_no_text {text : String} (hno : ∀ v, ¬ Json.TextOf text.toList v) : ofText? text = none := by
  have hnone : Json.parse text.toList = none :=
    Option.eq_none_iff_forall_ne_some.2 fun v hv => hno v (Json.parse_eq_some_iff.1 hv)
  rw [ofText?, hnone, Option.bind_none]

/-- **A configuration survives its text**, and fields that are left out have their standard values. The text that is
written for a configuration of 64-bit numbers is read as that configuration. Where it is valid, a file with this text is
loaded as it, and showing the file prints the text at its end. In any other text of an object, with blanks anywhere, the
members may stand in any order, and members with other names are passed over, whatever their values and however deep.
What counts is that each name is a text, and that there is one number of 64 bits under the name of a field or nothing. A
field that occurs twice is refused, and so is what is no JSON. -/
theorem text_round_trip :
    (∀ c : Config, c.Fits → ofText? c.toJson.pretty = some c ∧
      (c.validate = .ok () → ∀ (path : String) (colours : Bool),
        load path (some c.toJson.pretty.toUTF8) = .ok c ∧
        ∃ lines, (Command.config (some path)).run (some c.toJson.pretty.toUTF8) colours = .ofLines lines ∧
          c.toJson.pretty.splitOn "\n" <:+ lines)) ∧
    (∀ (text : String) (ms : List (List Piece × Json)), Json.TextOf text.toList (.object ms) →
      (∀ entries, Json.Holds fieldNames ms entries → ofText? text = some (filled fun name => entries.lookup name)) ∧
      (∀ c, ofText? text = some c ↔ Named ms ∧ ∃ given : String → Option ℕ,
        (∀ name ∈ fieldNames, Gives ms name (given name)) ∧ c = filled given) ∧
      ∀ name ∈ fieldNames, 2 ≤ (called ms name).length → ofText? text = none) ∧
    ∀ text : String, (∀ v, ¬ Json.TextOf text.toList v) → ofText? text = none := by
  refine ⟨?_, ?_, fun text hno => ofText?_of_no_text hno⟩
  · intro c hfits
    refine ⟨ofText?_pretty hfits, fun hvalid path colours => ?_⟩
    have hload := load_pretty hfits hvalid path
    obtain ⟨lines, hlines, hend⟩ := exists_lines_eq hvalid
    refine ⟨hload, lines, ?_, hend⟩
    simp only [Command.run, hload, hlines]
  · intro text ms htext
    rw [ofText?_of_textOf htext]
    exact ⟨fun entries h => ofJson?_of_holds h, fun c => ofJson?_object_iff,
      fun name hname htwice => ofJson?_of_twice hname htwice⟩

/-- A text of two fields behind a member with another name, with blanks of all kinds. -/
def shuffledText : String :=
  " \x7b\"mtu\" :[\x7b\"a\":null\x7d, -1.5e+3,\r\n\"\\u00e9\"],\t\"staleness_ms\":18446744073709551615 ," ++
    "\"data_shards\" :4\x7d\n"

/-- The other member of the text. -/
def otherMember : List Piece × Json :=
  (Piece.ofText "mtu", .array [.object [(Piece.ofText "a", .null)], .numeral ['-', '1', '.', '5', 'e', '+', '3'],
    .string [.unit 0xE9]])

/-- The fields of the text. -/
def twoFields : List (String × ℕ) := [("staleness_ms", wordLimit - 1), ("data_shards", 4)]

/-- A configuration with the largest threshold is written, loaded and shown. It is also read from a text that gives the
data shards last, and a text that gives them twice and one that breaks off are refused. -/
theorem text_round_trip_of_shuffled_text :
    let c : Config := ⟨⟨4, 3⟩, 0, wordLimit - 1⟩
    c.Fits ∧ c.validate = .ok () ∧ load "session" (some c.toJson.pretty.toUTF8) = .ok c ∧
      Json.TextOf shuffledText.toList (.object (otherMember :: Json.numbers twoFields)) ∧
      ofText? shuffledText = some c ∧
      Json.TextOf "\x7b\"data_shards\":4,\"data_shards\":4\x7d".toList
        (.object (Json.numbers [("data_shards", 4), ("data_shards", 4)])) ∧
      ofText? "\x7b\"data_shards\":4,\"data_shards\":4\x7d" = none ∧ ofText? "\x7b data_shards: " = none := by
  intro c
  obtain ⟨hwritten, hread, hrefused⟩ := text_round_trip
  have hfits : c.Fits := ⟨by decide, by decide, by decide, by decide⟩
  have hvalid : c.validate = .ok () := rfl
  have htext : Json.TextOf shuffledText.toList (.object (otherMember :: Json.numbers twoFields)) :=
    Json.parse_eq_some_iff.1 (by cbv)
  have htwice : Json.TextOf "\x7b\"data_shards\":4,\"data_shards\":4\x7d".toList
      (.object (Json.numbers [("data_shards", 4), ("data_shards", 4)])) := Json.parse_eq_some_iff.1 (by cbv)
  have hholds : Json.Holds fieldNames (otherMember :: Json.numbers twoFields) twoFields :=
    { once := by
        show ["staleness_ms", "data_shards"].Nodup
        decide
      lt := by decide
      others := by
        refine ⟨[otherMember], (List.perm_append_singleton _ _).symm, fun m hm => ?_⟩
        obtain rfl := List.mem_singleton.1 hm
        exact ⟨_, Piece.text?_ofText "mtu", by decide⟩ }
  have hbroken : ∀ v, ¬ Json.TextOf "\x7b data_shards: ".toList v := by
    intro v hv
    have hnone : Json.parse "\x7b data_shards: ".toList = none := by cbv
    rw [Json.parse_of_textOf hv] at hnone
    cases hnone
  exact ⟨hfits, hvalid, ((hwritten c hfits).2 hvalid "session" false).1, htext, (hread _ _ htext).1 _ hholds, htwice,
    (hread _ _ htwice).2.2 "data_shards" (by decide) (by decide), hrefused _ hbroken⟩

end Config

end PacketFec
