import Mathlib
import PacketFec.Proofs.JsonGrammar

/-!
# The reader of JSON accepts the grammar and nothing else

What a reader takes off the front of a text is a phrase of the grammar for the value that it gives. The fuel plays no
part in this direction: a reader that runs out of it refuses.

* `Json.Sound`, `Json.readers_sound`: what has been read is derived.
* `Json.parse_eq_some_iff`: **a text is read exactly as what the grammar derives it for.**
-/

namespace PacketFec.Json

variable {s t a rest ds : List Char} {ps : List Piece} {v : Json} {fuel : ℕ}

/-- What is skipped is blank. -/
theorem exists_blanks (s : List Char) : ∃ a, Blanks a ∧ s = a ++ skip s :=
  ⟨s.takeWhile isBlank, fun _ hc => List.mem_takeWhile_imp hc, List.takeWhile_append_dropWhile.symm⟩

/-! ### Numerals -/

theorem digits1_sound (h : digits1 s = some (ds, rest)) : s = ds ++ rest ∧ Digits ds := by
  unfold digits1 digits at h
  simp only at h
  split at h
  · cases h
  · rename_i hne
    obtain ⟨rfl, rfl⟩ := Prod.mk.inj (Option.some.inj h)
    exact ⟨List.takeWhile_append_dropWhile.symm, by simpa using hne, fun _ hc => List.mem_takeWhile_imp hc⟩

theorem integerPart_sound (h : integerPart s = some (ds, rest)) : s = ds ++ rest ∧ Whole ds := by
  obtain ⟨⟨ds', rest'⟩, hdigits, h⟩ := Option.bind_eq_some_iff.1 h
  simp only at h
  split at h
  · cases h
  · rename_i hzero
    obtain ⟨rfl, rfl⟩ := Prod.mk.inj (Option.some.inj h)
    obtain ⟨heq, hds⟩ := digits1_sound hdigits
    refine ⟨heq, hds, fun hhead => ?_⟩
    obtain ⟨c, hc⟩ := List.length_eq_one_iff.1 (not_not.1 (not_and.1 hzero hhead))
    rw [hc] at hhead ⊢
    rw [Option.some.inj hhead]

theorem fractionPart_sound {fraction : List Char} (h : fractionPart s = some (fraction, rest)) :
    s = fraction ++ rest ∧ Fraction fraction := by
  unfold fractionPart at h
  split at h
  · obtain ⟨⟨ds, rest'⟩, hdigits, h⟩ := Option.bind_eq_some_iff.1 h
    obtain ⟨rfl, rfl⟩ := Prod.mk.inj (Option.some.inj h)
    obtain ⟨rfl, hds⟩ := digits1_sound hdigits
    exact ⟨rfl, .point hds⟩
  · obtain ⟨rfl, rfl⟩ := Prod.mk.inj (Option.some.inj h)
    exact ⟨rfl, .none⟩

theorem exponentSign_sound {sign : List Char} (h : exponentSign s = (sign, rest)) :
    s = sign ++ rest ∧ (sign = [] ∨ sign = ['+'] ∨ sign = ['-']) := by
  unfold exponentSign at h
  split at h
  all_goals
    obtain ⟨rfl, rfl⟩ := Prod.mk.inj h
    exact ⟨rfl, by simp⟩

theorem exponentPart_sound {exponent : List Char} (h : exponentPart s = some (exponent, rest)) :
    s = exponent ++ rest ∧ Exponent exponent := by
  unfold exponentPart at h
  split at h
  · rename_i e tail
    split at h
    · rename_i hletter
      cases hsign : exponentSign tail with
      | mk sign behind =>
        rw [hsign] at h
        obtain ⟨⟨ds, rest'⟩, hdigits, h⟩ := Option.bind_eq_some_iff.1 h
        obtain ⟨rfl, rfl⟩ := Prod.mk.inj (Option.some.inj h)
        obtain ⟨rfl, hds⟩ := digits1_sound hdigits
        obtain ⟨rfl, hfront⟩ := exponentSign_sound hsign
        exact ⟨by simp, .letter hletter hfront hds⟩
    · obtain ⟨rfl, rfl⟩ := Prod.mk.inj (Option.some.inj h)
      exact ⟨rfl, .none⟩
  · obtain ⟨rfl, rfl⟩ := Prod.mk.inj (Option.some.inj h)
    exact ⟨rfl, .none⟩

theorem parts_sound {whole fraction exponent : List Char} (h : parts s = some (whole, fraction, exponent, rest)) :
    s = whole ++ fraction ++ exponent ++ rest ∧ Parts whole fraction exponent := by
  obtain ⟨⟨w, rest₁⟩, hwhole, h₁⟩ := Option.bind_eq_some_iff.1 h
  obtain ⟨⟨f, rest₂⟩, hfraction, h₂⟩ := Option.bind_eq_some_iff.1 h₁
  obtain ⟨⟨e, rest₃⟩, hexponent, h₃⟩ := Option.bind_eq_some_iff.1 h₂
  obtain ⟨rfl, hw⟩ := integerPart_sound hwhole
  obtain ⟨rfl, hf⟩ := fractionPart_sound hfraction
  obtain ⟨rfl, he⟩ := exponentPart_sound hexponent
  cases h₃
  exact ⟨by simp, hw, hf, he⟩

theorem unsigned_sound (h : unsigned s = some (v, rest)) : ∃ t, s = t ++ rest ∧ Derives t (.value v) := by
  rw [unsigned_eq] at h
  obtain ⟨⟨whole, fraction, exponent, rest'⟩, hparts, h⟩ := Option.map_eq_some_iff.1 h
  obtain ⟨rfl, rfl⟩ := Prod.mk.inj h
  obtain ⟨rfl, hnumeral⟩ := parts_sound hparts
  refine ⟨whole ++ fraction ++ exponent, rfl, ?_⟩
  by_cases hnone : fraction = [] ∧ exponent = []
  · obtain ⟨rfl, rfl⟩ := hnone
    rw [if_pos ⟨rfl, rfl⟩, List.append_nil, List.append_nil]
    exact .natural hnumeral.whole
  · rw [if_neg hnone]
    exact .numeral hnumeral hnone

theorem negative_sound (h : negative s = some (v, rest)) : ∃ t, '-' :: s = t ++ rest ∧ Derives t (.value v) := by
  rw [negative_eq] at h
  obtain ⟨⟨whole, fraction, exponent, rest'⟩, hparts, h⟩ := Option.map_eq_some_iff.1 h
  obtain ⟨rfl, rfl⟩ := Prod.mk.inj h
  obtain ⟨rfl, hnumeral⟩ := parts_sound hparts
  exact ⟨'-' :: whole ++ fraction ++ exponent, rfl, .negative hnumeral⟩

/-! ### Strings -/

theorem pieces_sound (h : pieces s = some (ps, rest)) : ∃ t, s = t ++ '"' :: rest ∧ Spells t ps := by
  induction s using pieces.induct generalizing ps with
  | case1 => cases h
  | case2 tail =>
    obtain ⟨rfl, rfl⟩ := Prod.mk.inj (Option.some.inj h)
    exact ⟨[], rfl, .nil⟩
  | case3 a b c d tail ih =>
    obtain ⟨n, hn, h⟩ := Option.bind_eq_some_iff.1 h
    obtain ⟨⟨more, rest'⟩, hmore, h⟩ := Option.bind_eq_some_iff.1 h
    obtain ⟨rfl, rfl⟩ := Prod.mk.inj (Option.some.inj h)
    obtain ⟨t, rfl, ht⟩ := ih hmore
    exact ⟨_, rfl, .unit hn ht⟩
  | case4 e tail hno ih =>
    rw [pieces.eq_4 _ _ hno] at h
    obtain ⟨c, hc, h⟩ := Option.bind_eq_some_iff.1 h
    obtain ⟨⟨more, rest'⟩, hmore, h⟩ := Option.bind_eq_some_iff.1 h
    obtain ⟨rfl, rfl⟩ := Prod.mk.inj (Option.some.inj h)
    obtain ⟨t, rfl, ht⟩ := ih hmore
    exact ⟨_, rfl, .escape hc ht⟩
  | case5 c tail hquote hunit hescape hlow =>
    rw [pieces.eq_5 _ _ hquote hunit hescape, if_pos hlow] at h
    cases h
  | case6 c tail hquote hunit hescape hlow ih =>
    rw [pieces.eq_5 _ _ hquote hunit hescape, if_neg hlow] at h
    obtain ⟨⟨more, rest'⟩, hmore, h⟩ := Option.bind_eq_some_iff.1 h
    obtain ⟨rfl, rfl⟩ := Prod.mk.inj (Option.some.inj h)
    obtain ⟨t, rfl, ht⟩ := ih hmore
    obtain ⟨hraw, hslash⟩ := not_or.1 hlow
    exact ⟨_, rfl, .raw (not_lt.1 hraw) hquote hslash ht⟩

/-! ### Values -/

/-- What a reader of a kind of phrase takes off is a phrase of this kind. -/
def Sound {α : Type} (reader : List Char → Option (α × List Char)) (phrase : α → Phrase) : Prop :=
  ∀ s x rest, reader s = some (x, rest) → ∃ t, s = t ++ rest ∧ Derives t (phrase x)

theorem value_succ_sound (helements : Sound (elements fuel) .elements) (hmembers : Sound (members fuel) .members) :
    Sound (value (fuel + 1)) .value := by
  intro s v rest h
  unfold value at h
  split at h
  · obtain ⟨rfl, rfl⟩ := Prod.mk.inj (Option.some.inj h)
    exact ⟨_, rfl, .null⟩
  · obtain ⟨rfl, rfl⟩ := Prod.mk.inj (Option.some.inj h)
    exact ⟨_, rfl, .true⟩
  · obtain ⟨rfl, rfl⟩ := Prod.mk.inj (Option.some.inj h)
    exact ⟨_, rfl, .false⟩
  · obtain ⟨⟨ps, rest'⟩, hps, h⟩ := Option.map_eq_some_iff.1 h
    obtain ⟨rfl, rfl⟩ := Prod.mk.inj h
    obtain ⟨t, rfl, ht⟩ := pieces_sound hps
    exact ⟨'"' :: t ++ ['"'], by simp, .string ht⟩
  · exact negative_sound h
  · rename_i tail
    obtain ⟨a, ha, htail⟩ := exists_blanks tail
    split at h
    · rename_i hskip
      obtain ⟨rfl, rfl⟩ := Prod.mk.inj (Option.some.inj h)
      rw [htail, hskip]
      exact ⟨'[' :: a ++ [']'], by simp, .emptyArray ha⟩
    · obtain ⟨⟨items, rest'⟩, hitems, h⟩ := Option.map_eq_some_iff.1 h
      obtain ⟨rfl, rfl⟩ := Prod.mk.inj h
      obtain ⟨t, ht, hderives⟩ := helements _ _ _ hitems
      rw [htail, ht]
      exact ⟨'[' :: a ++ t, by simp, .array ha hderives⟩
  · rename_i tail
    obtain ⟨a, ha, htail⟩ := exists_blanks tail
    split at h
    · rename_i hskip
      obtain ⟨rfl, rfl⟩ := Prod.mk.inj (Option.some.inj h)
      rw [htail, hskip]
      exact ⟨'\x7b' :: a ++ ['\x7d'], by simp, .emptyObject ha⟩
    · obtain ⟨⟨ms, rest'⟩, hms, h⟩ := Option.map_eq_some_iff.1 h
      obtain ⟨rfl, rfl⟩ := Prod.mk.inj h
      obtain ⟨t, ht, hderives⟩ := hmembers _ _ _ hms
      rw [htail, ht]
      exact ⟨'\x7b' :: a ++ t, by simp, .object ha hderives⟩
  · exact unsigned_sound h

theorem elements_succ_sound (hvalue : Sound (value fuel) .value) (helements : Sound (elements fuel) .elements) :
    Sound (elements (fuel + 1)) .elements := by
  intro s items rest h
  rw [elements.eq_2] at h
  obtain ⟨⟨v, behind⟩, hv, hend⟩ := Option.bind_eq_some_iff.1 h
  obtain ⟨t, rfl, ht⟩ := hvalue _ _ _ hv
  obtain ⟨a, ha, hbehind⟩ := exists_blanks behind
  simp only at hend
  split at hend
  · rename_i tail hskip
    obtain ⟨⟨more, rest'⟩, hmore, hitems⟩ := Option.bind_eq_some_iff.1 hend
    obtain ⟨rfl, rfl⟩ := Prod.mk.inj (Option.some.inj hitems)
    obtain ⟨b, hb, htail⟩ := exists_blanks tail
    obtain ⟨t', ht', hderives⟩ := helements _ _ _ hmore
    rw [hbehind, hskip, htail, ht']
    exact ⟨t ++ a ++ ',' :: b ++ t', by simp, .element ht ha hb hderives⟩
  · rename_i tail hskip
    obtain ⟨rfl, rfl⟩ := Prod.mk.inj (Option.some.inj hend)
    rw [hbehind, hskip]
    exact ⟨t ++ a ++ [']'], by simp, .lastElement ht ha⟩
  · cases hend

theorem members_succ_sound (hvalue : Sound (value fuel) .value) (hmembers : Sound (members fuel) .members) :
    Sound (members (fuel + 1)) .members := by
  intro s ms rest h
  unfold members at h
  -- a member begins with a quote, and has a colon behind its name
  split at h
  swap
  · cases h
  obtain ⟨⟨name, behind⟩, hname, hcolon⟩ := Option.bind_eq_some_iff.1 h
  obtain ⟨n, rfl, hn⟩ := pieces_sound hname
  obtain ⟨a, ha, hbehind⟩ := exists_blanks behind
  simp only at hcolon
  split at hcolon
  swap
  · cases hcolon
  rename_i tail hskip
  obtain ⟨b, hb, htail⟩ := exists_blanks tail
  obtain ⟨⟨v, behind'⟩, hv, hend⟩ := Option.bind_eq_some_iff.1 hcolon
  obtain ⟨t, ht, hderives⟩ := hvalue _ _ _ hv
  obtain ⟨c, hc, hbehind'⟩ := exists_blanks behind'
  rw [hbehind, hskip, htail, ht, hbehind']
  simp only at hend
  split at hend
  · rename_i tail' hskip'
    obtain ⟨⟨more, rest'⟩, hmore, hms⟩ := Option.bind_eq_some_iff.1 hend
    obtain ⟨rfl, rfl⟩ := Prod.mk.inj (Option.some.inj hms)
    obtain ⟨d, hd, htail'⟩ := exists_blanks tail'
    obtain ⟨t', ht', hrest⟩ := hmembers _ _ _ hmore
    rw [hskip', htail', ht']
    exact ⟨'"' :: n ++ '"' :: a ++ ':' :: b ++ t ++ c ++ ',' :: d ++ t', by simp,
      .member hn ha hb hderives hc hd hrest⟩
  · rename_i tail' hskip'
    obtain ⟨rfl, rfl⟩ := Prod.mk.inj (Option.some.inj hend)
    rw [hskip']
    exact ⟨'"' :: n ++ '"' :: a ++ ':' :: b ++ t ++ c ++ ['\x7d'], by simp, .lastMember hn ha hb hderives hc⟩
  · cases hend

/-- **What has been read is derived**, whatever the fuel. -/
theorem readers_sound (fuel : ℕ) :
    Sound (value fuel) .value ∧ Sound (elements fuel) .elements ∧ Sound (members fuel) .members := by
  induction fuel with
  | zero => exact ⟨nofun, nofun, nofun⟩
  | succ fuel ih =>
    obtain ⟨hvalue, helements, hmembers⟩ := ih
    exact ⟨value_succ_sound helements hmembers, elements_succ_sound hvalue helements,
      members_succ_sound hvalue hmembers⟩

/-- **A text is read exactly as what the grammar derives it for.** -/
theorem parse_eq_some_iff : parse s = some v ↔ TextOf s v := by
  refine ⟨fun h => ?_, parse_of_textOf⟩
  obtain ⟨a, ha, hs⟩ := exists_blanks s
  unfold parse at h
  split at h
  · rename_i v' rest hvalue
    split at h
    · rename_i hempty
      obtain rfl := Option.some.inj h
      obtain ⟨t, ht, hderives⟩ := (readers_sound _).1 _ _ _ hvalue
      obtain ⟨b, hb, hrest⟩ := exists_blanks rest
      rw [List.isEmpty_iff.1 hempty, List.append_nil] at hrest
      rw [hs, ht, hrest, ← List.append_assoc]
      exact .mk ha hderives hb
    · cases h
  · cases h

end PacketFec.Json
