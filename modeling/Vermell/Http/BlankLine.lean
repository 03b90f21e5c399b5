import Vermell.Http.FieldGrammar

/-! The first blank line of an accepted request. `headBounds` knows two fixed terminators, while
the line loops cut at LF with an optional CR; the two notions part where a bare LF meets CRLF. -/
namespace Vermell.Http
open Text

/-- Bytes through the LF that ends the first blank piece, where a piece is blank when nothing is
left of it without its CR. The last piece has no LF behind it. -/
def firstBlank : List Bytes → Option ℕ
  | [] => none
  | [_] => none
  | piece :: rest =>
    if stripCr piece = [] then some (piece.length + 1)
    else (firstBlank rest).map (· + (piece.length + 1))

/-- The first blank line of the bytes is the one that ends the head. -/
def BlankLineEndsHead (raw : Bytes) : Prop :=
  ∃ headEnd separator, headBounds raw = some (headEnd, separator) ∧
    firstBlank (raw.splitOn LF) = some (headEnd + separator)

/-- A line that ends in a bare LF at `p` is followed directly by CRLF. -/
def BareLfCrlf (raw : Bytes) (p : ℕ) : Prop :=
  raw[p]? = some LF ∧ raw[p+1]? = some CR ∧ raw[p+2]? = some LF ∧
    ¬ (0 < p ∧ raw[p-1]? = some CR)

instance (raw : Bytes) (p : ℕ) : Decidable (BareLfCrlf raw p) :=
  inferInstanceAs (Decidable (_ ∧ _))

/-- A blank line starts at `p` and ends, its LF included, at `e`. -/
def BlankLine (raw : Bytes) (p e : ℕ) : Prop :=
  (p = 0 ∨ 0 < p ∧ raw[p-1]? = some LF) ∧
    (raw[p]? = some LF ∧ e = p + 1 ∨ raw[p]? = some CR ∧ raw[p+1]? = some LF ∧ e = p + 2)

theorem stripCr_eq_nil_iff (l : Bytes) : stripCr l = [] ↔ l = [] ∨ l = [CR] := by
  unfold stripCr
  cases l using List.reverseRecOn with
  | nil => simp
  | append_singleton l c =>
    simp only [List.getLast?_append, List.getLast?_singleton, Option.some_or, Option.some.injEq,
      List.dropLast_concat]
    by_cases hc : c = CR
    · subst hc
      simp
    · cases l <;> simp [hc]

/-- The only blank line that starts in the first line of a text is that line. -/
theorem blankLine_first_iff {l : Bytes} (hl : LF ∉ l) (s : Bytes) {p : ℕ} (e : ℕ)
    (hp : p ≤ l.length) : BlankLine (l ++ LF :: s) p e ↔
      p = 0 ∧ stripCr l = [] ∧ e = l.length + 1 := by
  have hin (i : ℕ) (hi : i < l.length) : (l ++ LF :: s)[i]? ≠ some LF := by
    rw [List.getElem?_append_left hi]
    exact fun h => hl (List.mem_of_getElem? h)
  rw [stripCr_eq_nil_iff]
  constructor
  · rintro ⟨hstart, hend⟩
    obtain rfl : p = 0 := by
      rcases hstart with h | ⟨hpos, h⟩
      · exact h
      · exact absurd h (hin _ (by omega))
    rcases hend with ⟨h, rfl⟩ | ⟨hcr, h, rfl⟩
    · have hnil : l.length = 0 := by
        by_contra hne
        exact hin 0 (by omega) h
      exact ⟨rfl, Or.inl (List.length_eq_zero_iff.mp hnil), by omega⟩
    · have hone : l.length = 1 := by
        rcases lt_trichotomy l.length 1 with hlt | heq | hgt
        · obtain rfl : l = [] := List.length_eq_zero_iff.mp (by omega)
          exact absurd hcr (by simp; decide)
        · exact heq
        · exact absurd h (hin 1 hgt)
      obtain ⟨c, rfl⟩ := List.length_eq_one_iff.mp hone
      obtain rfl : c = CR := by simpa using hcr
      exact ⟨rfl, Or.inr rfl, rfl⟩
  · rintro ⟨rfl, rfl | rfl, rfl⟩
    · exact ⟨Or.inl rfl, Or.inl ⟨by simp, rfl⟩⟩
    · exact ⟨Or.inl rfl, Or.inr ⟨by simp, by simp, rfl⟩⟩

/-- The blank lines behind an LF are those of the text behind it. -/
theorem blankLine_behind_iff (l s : Bytes) (q e : ℕ) :
    BlankLine (l ++ LF :: s) (l.length + 1 + q) e ↔
      ∃ d, e = l.length + 1 + d ∧ BlankLine s q d := by
  have hat (i : ℕ) : (l ++ LF :: s)[l.length + 1 + q + i]? = s[q + i]? := by
    rw [Nat.add_assoc, getElem?_append_cons]
  have hat0 : (l ++ LF :: s)[l.length + 1 + q]? = s[q]? := getElem?_append_cons ..
  have hbefore : (l ++ LF :: s)[l.length + 1 + q - 1]? = some LF ↔
      q = 0 ∨ 0 < q ∧ s[q-1]? = some LF := by
    cases q with
    | zero => simp
    | succ q =>
      rw [show l.length + 1 + (q + 1) - 1 = l.length + 1 + q by omega, getElem?_append_cons]
      simp
  unfold BlankLine
  rw [hbefore, hat0, hat 1]
  constructor
  · rintro ⟨hstart, hend⟩
    have hstart' := (hstart.resolve_left (by omega)).2
    refine ⟨e - (l.length + 1), by omega, hstart', ?_⟩
    exact hend.imp (fun h => ⟨h.1, by omega⟩) (fun h => ⟨h.1, h.2.1, by omega⟩)
  · rintro ⟨d, rfl, hstart, hend⟩
    refine ⟨Or.inr ⟨by omega, hstart⟩, ?_⟩
    exact hend.imp (fun h => ⟨h.1, by omega⟩) (fun h => ⟨h.1, h.2.1, by omega⟩)

/-- A blank line of a text is its first line or one behind its first LF. -/
theorem blankLine_append_iff {l : Bytes} (hl : LF ∉ l) (s : Bytes) (p e : ℕ) :
    BlankLine (l ++ LF :: s) p e ↔ p = 0 ∧ stripCr l = [] ∧ e = l.length + 1 ∨
      ∃ q d, p = l.length + 1 + q ∧ e = l.length + 1 + d ∧ BlankLine s q d := by
  cases Nat.lt_or_ge l.length p with
  | inl hp =>
    obtain ⟨q, rfl⟩ : ∃ q, p = l.length + 1 + q := ⟨p - (l.length + 1), by omega⟩
    rw [blankLine_behind_iff, or_iff_right (by omega)]
    constructor
    · rintro ⟨d, he, hd⟩
      exact ⟨q, d, rfl, he, hd⟩
    · rintro ⟨q', d, hq, he, hd⟩
      obtain rfl : q = q' := by omega
      exact ⟨d, he, hd⟩
  | inr hp =>
    rw [blankLine_first_iff hl s e hp, or_iff_left]
    rintro ⟨q, d, hq, -⟩
    omega

/-- `firstBlank` ends at the first blank line there is. -/
theorem firstBlank_eq_some_iff (raw : Bytes) (e : ℕ) :
    firstBlank (raw.splitOn LF) = some e ↔
      ∃ p, BlankLine raw p e ∧ ∀ q < p, ∀ d, ¬ BlankLine raw q d := by
  induction raw using splitOn_induction LF generalizing e with
  | last l hl =>
    rw [List.splitOn_eq_singleton hl]
    simp only [firstBlank, reduceCtorEq, false_iff]
    rintro ⟨p, ⟨-, h | h⟩, -⟩
    · exact hl (List.mem_of_getElem? h.1)
    · exact hl (List.mem_of_getElem? h.2.1)
  | line l s hl ih =>
    obtain ⟨piece, rest, hsplit⟩ := List.exists_cons_of_ne_nil (List.splitOn_ne_nil LF s)
    rw [splitOn_cons_line hl, hsplit]
    unfold firstBlank
    by_cases hblank : stripCr l = []
    · rw [if_pos hblank, Option.some.injEq]
      have hfirst : BlankLine (l ++ LF :: s) 0 (l.length + 1) :=
        (blankLine_append_iff hl s _ _).mpr (Or.inl ⟨rfl, hblank, rfl⟩)
      constructor
      · rintro rfl
        exact ⟨0, hfirst, by omega⟩
      · rintro ⟨p, hp, hmin⟩
        obtain rfl : p = 0 := by
          by_contra hne
          exact hmin 0 (by omega) _ hfirst
        rcases (blankLine_append_iff hl s _ _).mp hp with ⟨-, -, rfl⟩ | ⟨q, d, hq, -⟩
        · rfl
        · omega
    · rw [if_neg hblank, ← hsplit, Option.map_eq_some_iff]
      constructor
      · rintro ⟨d, hd, rfl⟩
        obtain ⟨q, hq, hmin⟩ := (ih d).mp hd
        refine ⟨l.length + 1 + q, ?_, ?_⟩
        · exact (blankLine_append_iff hl s _ _).mpr (Or.inr ⟨q, d, rfl, by omega, hq⟩)
        · intro q' hq' d' hblank'
          rcases (blankLine_append_iff hl s _ _).mp hblank' with ⟨-, h, -⟩ | ⟨q'', d'', rfl, -, h⟩
          · exact hblank h
          · exact hmin q'' (by omega) d'' h
      · rintro ⟨p, hp, hmin⟩
        rcases (blankLine_append_iff hl s _ _).mp hp with ⟨-, h, -⟩ | ⟨q, d, rfl, rfl, h⟩
        · exact absurd h hblank
        · refine ⟨d, (ih d).mpr ⟨q, h, ?_⟩, by omega⟩
          intro q' hq' d' h'
          exact hmin (l.length + 1 + q') (by omega) (l.length + 1 + d')
            ((blankLine_append_iff hl s _ _).mpr (Or.inr ⟨q', d', rfl, rfl, h'⟩))

/-- An accepted request does not start with a blank line: its request line holds a method. -/
theorem parse_first_line {raw : Bytes} {m : Message} (h : parse raw = some m) (e : ℕ) :
    ¬ BlankLine raw 0 e := by
  intro hblank
  obtain ⟨headEnd, separator, method, target, version, _, _, _, hb, -, -, -, -, hrl, -⟩ :=
    (parse_eq_some_iff raw m).mp h
  have hshort : SP ∉ requestLine (raw.take headEnd) := by
    -- the request line of a blank first line is empty or a lone CR
    have hline : requestLine (raw.take headEnd) = [] ∨ requestLine (raw.take headEnd) = [CR] := by
      unfold requestLine
      rcases hblank.2 with ⟨hlf, -⟩ | ⟨hcr, hlf, -⟩
      · obtain ⟨t, rfl⟩ : ∃ t, raw = LF :: t := List.head?_eq_some_iff.mp
          (List.head?_eq_getElem?.trans hlf)
        cases headEnd with
        | zero => simp
        | succ k =>
          have := splitOn_cons_line (a := LF) (l := []) (s := t.take k) (by simp)
          simp only [List.nil_append] at this
          simp [this]
      · obtain ⟨t, rfl⟩ : ∃ t, raw = CR :: LF :: t := by
          obtain ⟨t, rfl⟩ := List.head?_eq_some_iff.mp (List.head?_eq_getElem?.trans hcr)
          obtain ⟨t, rfl⟩ := List.head?_eq_some_iff.mp
            (List.head?_eq_getElem?.trans (by simpa using hlf))
          exact ⟨t, rfl⟩
        match headEnd with
        | 0 => simp
        | 1 =>
          have := List.splitOn_eq_singleton (show LF ∉ [CR] by decide)
          simp [this]
        | k + 2 =>
          have := splitOn_cons_line (a := LF) (l := [CR]) (s := t.take k) (by decide)
          simp only [List.cons_append, List.nil_append] at this
          simp [this]
    rcases hline with h | h <;> rw [h] <;> decide
  simp [parseRequestLine, List.idxOf?_eq_none_iff.mpr hshort] at hrl

/-- The blank line that the terminator stands for. -/
theorem TerminatorAt.blankLine {raw : Bytes} {i k : ℕ} (h : TerminatorAt raw i k) :
    BlankLine raw (i + k / 2) (i + k) := by
  rcases h with ⟨rfl, h⟩ | ⟨rfl, h⟩
  · obtain ⟨-, h1, h2, h3⟩ := (crlfcrlf_at_iff _ _).mp h
    exact ⟨Or.inr ⟨by omega, h1⟩, Or.inr ⟨h2, h3, rfl⟩⟩
  · obtain ⟨h0, h1⟩ := (lflf_at_iff _ _).mp h
    exact ⟨Or.inr ⟨by omega, h0⟩, Or.inl ⟨h1, rfl⟩⟩

/-- A bare LF with CRLF behind it makes a blank line, in front of the terminator's own. -/
theorem BareLfCrlf.blankLine {raw : Bytes} {headEnd separator p : ℕ}
    (hterm : TerminatorAt raw headEnd separator) (h : BareLfCrlf raw p)
    (hp : p + 3 ≤ headEnd + separator) :
    BlankLine raw (p + 1) (p + 3) ∧ p + 3 < headEnd + separator := by
  obtain ⟨h0, h1, h2, hbare⟩ := h
  refine ⟨⟨Or.inr ⟨by omega, h0⟩, Or.inr ⟨h1, h2, rfl⟩⟩, ?_⟩
  -- otherwise the bare LF would be an LF of the terminator itself
  by_contra hend
  rcases hterm with ⟨rfl, hterm⟩ | ⟨rfl, hterm⟩
  · obtain ⟨hcr, -⟩ := (crlfcrlf_at_iff _ _).mp hterm
    obtain rfl : p = headEnd + 1 := by omega
    exact hbare ⟨by omega, hcr⟩
  · obtain ⟨hlf, -⟩ := (lflf_at_iff _ _).mp hterm
    obtain rfl : headEnd = p + 1 := by omega
    rw [h1] at hlf
    exact absurd hlf (by decide)

/-- A blank line behind the first line and in front of the terminator's own has a bare LF in front
of it; any other would be a terminator. -/
theorem bareLfCrlf_of_blankLine {raw : Bytes} {headEnd separator p d : ℕ}
    (hb : headBounds raw = some (headEnd, separator)) (h : BlankLine raw (p + 1) d)
    (hp : p + 1 < headEnd + separator / 2) :
    BareLfCrlf raw p ∧ p + 3 ≤ headEnd + separator := by
  obtain ⟨hterm, hmin⟩ := (headBounds_eq_some_iff _ _ _).mp hb
  have hsep : separator = 4 ∨ separator = 2 := hterm.imp And.left And.left
  obtain ⟨hstart, hend⟩ := h
  have hlf := (hstart.resolve_left (by omega)).2
  simp only [Nat.add_sub_cancel] at hlf
  rcases hend with ⟨hlf', -⟩ | ⟨hcr, hlf', -⟩
  · exfalso
    -- LFLF in front of the terminator is a terminator itself
    have hle : headEnd ≤ p := by
      by_contra hlt
      exact hmin p (by omega) 2 (Or.inr ⟨rfl, (lflf_at_iff _ _).mpr ⟨hlf, hlf'⟩⟩)
    rcases hterm with ⟨rfl, hterm⟩ | ⟨rfl, hterm⟩
    · obtain rfl : p = headEnd := by omega
      rw [((crlfcrlf_at_iff _ _).mp hterm).1] at hlf
      exact absurd hlf (by decide)
    · omega
  · refine ⟨⟨hlf, hcr, hlf', ?_⟩, by omega⟩
    rintro ⟨hpos, hprev⟩
    -- so is CRLFCRLF
    obtain ⟨q, rfl⟩ : ∃ q, p = q + 1 := ⟨p - 1, by omega⟩
    have hocc : CRLFCRLF <+: raw.drop q :=
      (crlfcrlf_at_iff _ _).mpr ⟨hprev, hlf, hcr, hlf'⟩
    have hle : headEnd ≤ q := by
      by_contra hlt
      exact hmin q (by omega) 4 (Or.inl ⟨rfl, hocc⟩)
    omega

/-- The first blank line of an accepted request ends the head exactly when, up to there, no line
that ends in a bare LF is followed directly by CRLF. -/
theorem parse_blank_line_ends_head_iff (raw : Bytes) (m : Message) (headEnd separator : ℕ)
    (h : parse raw = some m) (hb : headBounds raw = some (headEnd, separator)) :
    BlankLineEndsHead raw ↔ ∀ p, p + 3 ≤ headEnd + separator → ¬ BareLfCrlf raw p := by
  have hterm := ((headBounds_eq_some_iff _ _ _).mp hb).1
  have hends : BlankLineEndsHead raw ↔
      firstBlank (raw.splitOn LF) = some (headEnd + separator) := by
    unfold BlankLineEndsHead
    rw [hb]
    constructor
    · rintro ⟨_, _, heq, hfirst⟩
      cases heq
      exact hfirst
    · exact fun hfirst => ⟨_, _, rfl, hfirst⟩
  rw [hends, firstBlank_eq_some_iff]
  constructor
  · rintro ⟨p, hp, hfirst⟩ q hq hbare
    obtain ⟨hblank, hlt⟩ := hbare.blankLine hterm hq
    have hle : p ≤ q + 1 := by
      by_contra hqp
      exact hfirst (q + 1) (by omega) _ hblank
    rcases hp.2 with ⟨-, he⟩ | ⟨-, -, he⟩ <;> omega
  · intro hbare
    refine ⟨headEnd + separator / 2, hterm.blankLine, ?_⟩
    intro q hq d hblank
    cases q with
    | zero => exact parse_first_line h d hblank
    | succ p =>
      obtain ⟨hp, hle⟩ := bareLfCrlf_of_blankLine hb hblank hq
      exact hbare p hle hp

/-- A head with both line endings, and no empty line behind its bare LF. -/
theorem blank_line_ends_plain_head :
    BlankLineEndsHead (bytes "GET / HTTP/1.0\r\nHost: a\nAccept: b\r\n\r\n") := by
  let raw := bytes "GET / HTTP/1.0\r\nHost: a\nAccept: b\r\n\r\n"
  have hm : (parse raw).isSome = true := by decide +kernel
  obtain ⟨m, hm⟩ := Option.isSome_iff_exists.mp hm
  have hbare : ∀ p < 35, ¬ BareLfCrlf raw p := by decide +kernel
  apply (parse_blank_line_ends_head_iff _ m 33 4 hm (by decide +kernel)).mpr
  intro p hp
  exact hbare p (by omega)

/-- The Host field of this request stands behind its first blank line. -/
theorem blank_line_inside_head :
    ¬ ∀ m, parse (bytes "GET / HTTP/1.0\n\r\nHost: x\r\n\r\n") = some m →
      BlankLineEndsHead (bytes "GET / HTTP/1.0\n\r\nHost: x\r\n\r\n") := by
  intro hall
  have hm : (parse (bytes "GET / HTTP/1.0\n\r\nHost: x\r\n\r\n")).isSome = true := by decide
  obtain ⟨m, hm⟩ := Option.isSome_iff_exists.mp hm
  obtain ⟨headEnd, separator, hb, hfirst⟩ := hall m hm
  have hb' : headBounds (bytes "GET / HTTP/1.0\n\r\nHost: x\r\n\r\n") = some (24, 4) := by decide
  have hfirst' : firstBlank ((bytes "GET / HTTP/1.0\n\r\nHost: x\r\n\r\n").splitOn LF) =
      some 17 := by decide
  rw [hfirst'] at hfirst
  rw [hb'] at hb
  cases hb
  simp at hfirst

end Vermell.Http
