import Vermell.Json.Numbers

/-! The parser reads the grammar. Each level of values is read if the level below is, so a parser
with so many levels reads the values that nest no deeper. -/
namespace Vermell.Json
open Http Text

theorem consumeLit_eq_some_iff (lit s t : Bytes) : consumeLit lit s = some t ↔ s = lit ++ t := by
  unfold consumeLit
  constructor
  · intro h
    split_ifs at h with hlit
    cases h
    calc s = s.take lit.length ++ s.drop lit.length := (List.take_append_drop _ s).symm
      _ = lit ++ s.drop lit.length := by rw [hlit]
  · rintro rfl
    rw [List.take_left, if_pos rfl, List.drop_left]

theorem endsNumber_cons {c : UInt8} (h : isWs c = true ∨ c = COMMA ∨ c = RBRACKET ∨ c = RBRACE)
    (t : Bytes) : EndsNumber (c :: t) := by
  have hc : c = SP ∨ c = HTAB ∨ c = LF ∨ c = CR ∨ c = COMMA ∨ c = RBRACKET ∨ c = RBRACE := by
    simpa [isWs, or_assoc] using h
  intro c' t' heq
  cases heq
  rcases hc with rfl | rfl | rfl | rfl | rfl | rfl | rfl
  all_goals decide

theorem eq_cons_of_peek {c : UInt8} {s : Bytes} (h : peek s = c) (hc : c ≠ 0) :
    s = c :: s.tail := by
  cases s with
  | nil => exact absurd h hc.symm
  | cons d s =>
    cases h
    rfl

/-- The first byte of a number is none that is neither a digit nor a minus. -/
theorem start_ne {c d : UInt8} (hc : isDigit c = true ∨ c = MINUS)
    (hd : ¬(isDigit d = true ∨ d = MINUS)) : c ≠ d := by
  rintro rfl
  exact hd hc

section
variable {δ : Type} (lib : Doubles δ) {value : Reader UInt8 (Json δ)} {L : Bytes → Json δ → Prop}

/-- What no value starts with, a whitespace or a closing bracket. -/
def Starts (w : Bytes) : Prop := ∃ c t, w = c :: t ∧ isWs c = false ∧ c ≠ RBRACKET

theorem Production.starts {w : Bytes} {j : Json δ} (h : Production lib L w j) : Starts w := by
  cases h with
  | null => exact ⟨_, _, rfl, by decide⟩
  | true => exact ⟨_, _, rfl, by decide⟩
  | false => exact ⟨_, _, rfl, by decide⟩
  | number h =>
    obtain ⟨c, t, rfl, hc⟩ := h.start
    refine ⟨c, t, rfl, ?_, start_ne hc (by decide)⟩
    rw [Bool.eq_false_iff]
    intro hws
    rcases (show c = SP ∨ c = HTAB ∨ c = LF ∨ c = CR by simpa [isWs, or_assoc] using hws) with
      rfl | rfl | rfl | rfl
    all_goals exact absurd hc (by decide)
  | string h =>
    cases h
    exact ⟨_, _, rfl, by decide⟩
  | array _ => exact ⟨_, _, rfl, by decide⟩
  | object _ => exact ⟨_, _, rfl, by decide⟩

theorem parseMember_eq_some_iff (s : Bytes) (m : Bytes × Json δ) (r : Bytes) :
    parseMember value s = some (m, r) ↔ ∃ t u, parseString s = some (m.1, t) ∧
      skipWs t = COLON :: u ∧ value (skipWs u) = some (m.2, r) := by
  obtain ⟨key, j⟩ := m
  have hquote {t : Bytes} (h : parseString s = some (key, t)) : peek s = QUOTE := by
    obtain ⟨k, rfl, hk⟩ := reads_string.sound _ _ _ h
    cases hk
    rfl
  simp only [parseMember, Option.bind_eq_bind, Option.bind_eq_some_iff, Prod.exists,
    Option.guard_eq_some', Option.pure_def, Option.some.injEq, Prod.mk.injEq,
    consume_eq_some_iff (show COLON ≠ 0 by decide)]
  constructor
  · rintro ⟨-, -, key, t, hkey, u, hcolon, j, r, hj, ⟨rfl, rfl⟩, rfl⟩
    exact ⟨t, u, hkey, hcolon, hj⟩
  · rintro ⟨t, u, hkey, hcolon, hj⟩
    exact ⟨(), hquote hkey, key, t, hkey, u, hcolon, j, r, hj, ⟨rfl, rfl⟩, rfl⟩

theorem reads_member (hvalue : Reads value L EndsNumber) (hstart : ∀ w j, L w j → Starts w) :
    Reads (parseMember value) (Member L) EndsNumber := by
  constructor
  · rintro s ⟨key, j⟩ r h
    obtain ⟨t, u, hkey, hcolon, hj⟩ := (parseMember_eq_some_iff s _ r).mp h
    obtain ⟨k, rfl, hk⟩ := reads_string.sound _ _ _ hkey
    obtain ⟨w, hw, hL⟩ := hvalue.sound _ _ _ hj
    obtain ⟨a, ht, ha⟩ := exists_blanks isWs t
    obtain ⟨b, hu, hb⟩ := exists_blanks isWs u
    refine ⟨k ++ a ++ COLON :: b ++ w, ?_, .mk hk ha hb hL⟩
    change skipWs u = _ at hw
    change u = b ++ skipWs u at hu
    change t = a ++ skipWs t at ht
    rw [ht, hcolon, hu, hw]
    simp
  · intro w m r h hr
    cases h with
    | @mk k key a b w x hk ha hb hL =>
      obtain ⟨c, t, rfl, hc, -⟩ := hstart w x hL
      refine (parseMember_eq_some_iff _ _ r).mpr
        ⟨a ++ COLON :: (b ++ (c :: t ++ r)), b ++ (c :: t ++ r), ?_, ?_, ?_⟩
      · have hread := reads_string.complete k key (a ++ COLON :: (b ++ (c :: t ++ r))) hk trivial
        simpa using hread
      · exact dropWhile_append ha (unblank_cons (by decide))
      · have hskip : skipWs (b ++ (c :: t ++ r)) = c :: t ++ r :=
          dropWhile_append hb (unblank_cons hc)
        rw [hskip]
        exact hvalue.complete _ _ r hL hr

theorem reads_items (hvalue : Reads value L EndsNumber) (hstart : ∀ w j, L w j → Starts w) :
    Reads (readDelimited isWs COMMA RBRACKET value) (Delimited isWs COMMA RBRACKET L)
      fun _ => True := by
  refine hvalue.delimited hstart ?_ (by decide) (by decide) (by decide)
  exact fun c t h => endsNumber_cons (h.imp_right (Or.imp_right Or.inl)) t

theorem reads_members (hvalue : Reads value L EndsNumber) (hstart : ∀ w j, L w j → Starts w) :
    Reads (readDelimited isWs COMMA RBRACE (parseMember value))
      (Delimited isWs COMMA RBRACE (Member L)) fun _ => True := by
  refine (reads_member hvalue hstart).delimited ?_ ?_ (by decide) (by decide) (by decide)
  · rintro _ _ ⟨⟨_⟩, -, -, -⟩
    exact ⟨QUOTE, _, rfl, by decide⟩
  · exact fun c t h => endsNumber_cons (h.imp_right (Or.imp_right Or.inr)) t

theorem reads_switch (hvalue : Reads value L EndsNumber) (hstart : ∀ w j, L w j → Starts w) :
    Reads (parseSwitch lib value) (Production lib L) EndsNumber := by
  have harray := reads_items hvalue hstart
  have hobject := reads_members hvalue hstart
  constructor
  · intro s j r h
    unfold parseSwitch at h
    split_ifs at h with hn ht hf hquote hbracket hbrace
    · obtain ⟨t, hlit, heq⟩ := Option.map_eq_some_iff.mp h
      cases heq
      exact ⟨_, (consumeLit_eq_some_iff _ _ _).mp hlit, .null⟩
    · obtain ⟨t, hlit, heq⟩ := Option.map_eq_some_iff.mp h
      cases heq
      exact ⟨_, (consumeLit_eq_some_iff _ _ _).mp hlit, .true⟩
    · obtain ⟨t, hlit, heq⟩ := Option.map_eq_some_iff.mp h
      cases heq
      exact ⟨_, (consumeLit_eq_some_iff _ _ _).mp hlit, .false⟩
    · obtain ⟨⟨text, t⟩, hs, heq⟩ := Option.map_eq_some_iff.mp h
      cases heq
      obtain ⟨w, rfl, hw⟩ := reads_string.sound _ _ _ hs
      exact ⟨w, rfl, .string hw⟩
    · obtain ⟨⟨items, t⟩, hs, heq⟩ := Option.map_eq_some_iff.mp h
      cases heq
      obtain ⟨w, hw, hL⟩ := harray.sound _ _ _ hs
      exact ⟨LBRACKET :: w, by rw [eq_cons_of_peek hbracket (by decide), hw]; rfl, .array hL⟩
    · obtain ⟨⟨members, t⟩, hs, heq⟩ := Option.map_eq_some_iff.mp h
      cases heq
      obtain ⟨w, hw, hL⟩ := hobject.sound _ _ _ hs
      exact ⟨LBRACE :: w, by rw [eq_cons_of_peek hbrace (by decide), hw]; rfl, .object hL⟩
    · obtain ⟨w, rfl, hw⟩ := (reads_number lib).sound _ _ _ h
      exact ⟨w, rfl, .number hw⟩
  · intro w j r h hr
    cases h with
    | null =>
      change (consumeLit (bytes "null") (bytes "null" ++ r)).map _ = _
      rw [(consumeLit_eq_some_iff _ _ _).mpr rfl]
      rfl
    | true =>
      change (consumeLit (bytes "true") (bytes "true" ++ r)).map _ = _
      rw [(consumeLit_eq_some_iff _ _ _).mpr rfl]
      rfl
    | false =>
      change (consumeLit (bytes "false") (bytes "false" ++ r)).map _ = _
      rw [(consumeLit_eq_some_iff _ _ _).mpr rfl]
      rfl
    | number h =>
      have hread := (reads_number lib).complete w j r h hr
      obtain ⟨c, t, rfl, hc⟩ := h.start
      have hpeek : peek (c :: t ++ r) = c := rfl
      unfold parseSwitch
      rw [hpeek, if_neg (start_ne hc (by decide)), if_neg (start_ne hc (by decide)),
        if_neg (start_ne hc (by decide)), if_neg (start_ne hc (by decide)),
        if_neg (start_ne hc (by decide)), if_neg (start_ne hc (by decide)), hread]
    | @string _ text h =>
      have hread := reads_string.complete w text r h trivial
      cases h
      change (parseString _).map _ = _
      rw [hread]
      rfl
    | @array w items h =>
      change (readDelimited isWs COMMA RBRACKET value (w ++ r)).map _ = _
      rw [harray.complete w items r h trivial]
      rfl
    | @object w members h =>
      change (readDelimited isWs COMMA RBRACE (parseMember value) (w ++ r)).map _ = _
      rw [hobject.complete w members r h trivial]
      rfl

theorem member_and (L : Bytes → Json δ → Prop) (P : Json δ → Prop) :
    Member (fun w j => L w j ∧ P j) = fun w m => Member L w m ∧ P m.2 := by
  funext w m
  apply propext
  constructor
  · rintro ⟨hk, ha, hb, hL, hP⟩
    exact ⟨.mk hk ha hb hL, hP⟩
  · rintro ⟨⟨hk, ha, hb, hL⟩, hP⟩
    exact .mk hk ha hb ⟨hL, hP⟩

/-- A value nests one level deeper than the values inside it. -/
theorem production_iff (n : ℕ) (w : Bytes) (j : Json δ) :
    Production lib (fun w j => Value lib w j ∧ j.enclosure < n) w j ↔
      Value lib w j ∧ j.enclosure < n + 1 := by
  constructor
  · intro h
    cases h with
    | null => exact ⟨⟨.null⟩, Nat.succ_pos _⟩
    | true => exact ⟨⟨.true⟩, Nat.succ_pos _⟩
    | false => exact ⟨⟨.false⟩, Nat.succ_pos _⟩
    | number h =>
      refine ⟨⟨.number h⟩, ?_⟩
      cases h <;> exact Nat.succ_pos _
    | string h => exact ⟨⟨.string h⟩, Nat.succ_pos _⟩
    | array h =>
      obtain ⟨h, hitems⟩ := delimited_and_iff.mp h
      exact ⟨⟨.array h⟩, Nat.lt_succ_of_le ((itemsEnclosure_le_iff _ n).mpr hitems)⟩
    | object h =>
      rw [member_and] at h
      obtain ⟨h, hmembers⟩ := delimited_and_iff.mp h
      exact ⟨⟨.object h⟩, Nat.lt_succ_of_le ((membersEnclosure_le_iff _ n).mpr hmembers)⟩
  · rintro ⟨⟨h⟩, hn⟩
    cases h with
    | null => exact .null
    | true => exact .true
    | false => exact .false
    | number h => exact .number h
    | string h => exact .string h
    | array h =>
      have hitems := (itemsEnclosure_le_iff _ n).mp (Nat.le_of_lt_succ hn)
      exact .array (delimited_and_iff.mpr ⟨h, hitems⟩)
    | object h =>
      have hmembers := (membersEnclosure_le_iff _ n).mp (Nat.le_of_lt_succ hn)
      refine .object ?_
      rw [member_and]
      exact delimited_and_iff.mpr ⟨h, hmembers⟩

theorem reads_levels (n : ℕ) :
    Reads (parseLevels lib n) (fun w j => Value lib w j ∧ j.enclosure < n) EndsNumber := by
  induction n with
  | zero =>
    constructor
    · intro s j r h
      cases h
    · rintro w j r ⟨-, h⟩
      exact absurd h (Nat.not_lt_zero _)
  | succ n ih =>
    have hstart : ∀ w j, Value lib w j ∧ j.enclosure < n → Starts w := by
      rintro w j ⟨⟨h⟩, -⟩
      exact h.starts
    exact (reads_switch lib ih hstart).congr (production_iff lib n)

/-- A word denotes one tree at most. -/
theorem Value.unique {w : Bytes} {j k : Json δ} (hj : Value lib w j) (hk : Value lib w k) :
    j = k := by
  have hend : EndsNumber [] := by
    intro c t h
    cases h
  exact (reads_levels lib (max j.enclosure k.enclosure + 1)).unique hend
    ⟨hj, Nat.lt_succ_of_le (le_max_left _ _)⟩ ⟨hk, Nat.lt_succ_of_le (le_max_right _ _)⟩

/-- A word of the grammar is parsed to the tree that it denotes. -/
theorem parse_word {w : Bytes} {j : Json δ} (h : Value lib w j) (hdepth : j.enclosure ≤ 256) :
    parse lib w = some j := by
  have hend : EndsNumber [] := by
    intro c t h
    cases h
  have hread : parseValue lib 0 (w ++ []) = some (j, []) :=
    (reads_levels lib 257).complete w j [] ⟨h, Nat.lt_succ_of_le hdepth⟩ hend
  obtain ⟨c, t, rfl, hc, -⟩ : Starts w := by
    obtain ⟨h⟩ := h
    exact h.starts
  have hskip : skipWs (c :: t) = c :: t := dropWhile_append (a := []) (by simp) (unblank_cons hc)
  rw [List.append_nil] at hread
  unfold parse
  rw [hskip, hread]
  rfl

/-- The parser accepts exactly the JSON texts of the grammar in which no value is enclosed by more
than 256 containers, and returns the tree they denote. -/
theorem parse_accepts_iff (text : Bytes) (j : Json δ) :
    parse lib text = some j ↔ JsonText lib text j ∧ j.enclosure ≤ 256 := by
  have hread : Reads (parseValue lib 0) _ _ := reads_levels lib 257
  unfold parse
  constructor
  · intro h
    cases hv : parseValue lib 0 (skipWs text) with
    | none => simp [hv] at h
    | some x =>
      obtain ⟨v, r⟩ := x
      simp only [hv] at h
      split_ifs at h with hrest
      cases h
      obtain ⟨a, htext, ha⟩ := exists_blanks isWs text
      obtain ⟨b, hr, hb⟩ := exists_blanks isWs r
      obtain ⟨w, hw, hvalue, hdepth⟩ := hread.sound _ _ _ hv
      change text = a ++ skipWs text at htext
      change r = b ++ skipWs r at hr
      rw [not_not] at hrest
      rw [hrest, List.append_nil] at hr
      rw [hw, ← List.append_assoc, hr] at htext
      rw [htext]
      exact ⟨.mk ha hvalue hb, Nat.le_of_lt_succ hdepth⟩
  · rintro ⟨⟨ha, hvalue, hb⟩, hdepth⟩
    rename_i a w b
    obtain ⟨c, t, rfl, hc, -⟩ : Starts w := by
      obtain ⟨h⟩ := hvalue
      exact h.starts
    have hskip : skipWs (a ++ (c :: t) ++ b) = c :: t ++ b := by
      rw [List.append_assoc]
      exact dropWhile_append ha (unblank_cons hc)
    have hend : EndsNumber b := by
      cases b with
      | nil =>
        intro d u h
        cases h
      | cons d b => exact endsNumber_cons (Or.inl (hb d (by simp))) b
    have hrest : skipWs b = [] := List.dropWhile_eq_nil_iff.mpr hb
    rw [hskip, hread.complete _ j b ⟨hvalue, Nat.lt_succ_of_le hdepth⟩ hend]
    simp only [hrest]
    rfl

end
end Vermell.Json
