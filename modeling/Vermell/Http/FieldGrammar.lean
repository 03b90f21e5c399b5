import Vermell.Http.ParseFraming

/-! The field-line grammar of an accepted request. `trim` runs before the token test, so blanks
between a field name and its colon, and a CR in front of the name, pass unnoticed. -/
namespace Vermell.Http
open Text

/-- Each non-empty header line is a token at its first byte, the colon and a rest, and the i-th
header is that token with the trimmed rest. -/
def StrictFieldLines (raw : Bytes) (m : Message) : Prop :=
  ∃ headEnd separator, headBounds raw = some (headEnd, separator) ∧
    List.Forall₂ (fun line header => ∃ name rest, line = name ++ COLON :: rest ∧
      isToken name = true ∧ header = (name, trim rest)) (fieldLines (raw.take headEnd)) m.headers

/-- No CR in front of the name and no blank between the name and the first colon. -/
def UnpaddedName (line : Bytes) : Prop :=
  ∀ name rest, line = name ++ COLON :: rest → COLON ∉ name →
    name.head? ≠ some CR ∧ ∀ c, name.getLast? = some c → isBlank c = false

theorem isTchar_not_blank {c : UInt8} (h : isTchar c = true) : isBlank c = false ∧ c ≠ COLON := by
  constructor
  · rw [Bool.eq_false_iff]
    intro hblank
    simp only [isBlank, Bool.or_eq_true, beq_iff_eq] at hblank
    rcases hblank with ((rfl | rfl) | rfl) | rfl <;> exact absurd h (by decide)
  · rintro rfl
    exact absurd h (by decide)

theorem strictFieldLines_iff {raw : Bytes} {headEnd separator : ℕ} (m : Message)
    (hb : headBounds raw = some (headEnd, separator)) :
    StrictFieldLines raw m ↔ List.Forall₂ (fun line header => ∃ name rest,
      line = name ++ COLON :: rest ∧ isToken name = true ∧ header = (name, trim rest))
      (fieldLines (raw.take headEnd)) m.headers := by
  unfold StrictFieldLines
  rw [hb]
  constructor
  · rintro ⟨_, _, heq, hlines⟩
    cases heq
    exact hlines
  · intro hlines
    exact ⟨_, _, rfl, hlines⟩

theorem isToken_iff (s : Bytes) : isToken s = true ↔ s ≠ [] ∧ ∀ c ∈ s, isTchar c = true := by
  simp [isToken]

theorem isToken_no_colon {s : Bytes} (h : isToken s = true) : COLON ∉ s := by
  intro hmem
  exact (isTchar_not_blank (((isToken_iff s).mp h).2 _ hmem)).2 rfl

/-- On a line that `parse` accepts, the strict form and an unpadded name are the same thing. -/
theorem parseField_strict_iff {line : Bytes} {header : Bytes × Bytes} (hlf : LF ∉ line)
    (h : parseField line = some header) :
    (∃ name rest, line = name ++ COLON :: rest ∧ isToken name = true ∧
      header = (name, trim rest)) ↔ UnpaddedName line := by
  obtain ⟨hfold, hcut, htok⟩ := (parseField_eq_some_iff _ _).mp h
  unfold isFold at hfold
  obtain ⟨pre, post, rfl, hpre, hne, rfl⟩ := (cutField_eq_some_iff _ _).mp hcut
  -- the text in front of the first colon is the only candidate for the name
  have huniq (name rest : Bytes) (heq : pre ++ COLON :: post = name ++ COLON :: rest)
      (hname : COLON ∉ name) : name = pre ∧ rest = post := append_cons_inj hname hpre heq.symm
  constructor
  · rintro ⟨name, rest, heq, hname, -⟩
    obtain ⟨hne', hchars⟩ := (isToken_iff name).mp hname
    have hcolon := isToken_no_colon hname
    obtain ⟨rfl, rfl⟩ := huniq name rest heq hcolon
    intro name' rest' heq' hname'
    obtain ⟨rfl, rfl⟩ := huniq name' rest' heq' hname'
    constructor
    · intro hcr
      have hblank := (isTchar_not_blank (hchars _ (List.mem_of_mem_head? hcr))).1
      exact absurd hblank (by decide)
    · intro c hc
      exact (isTchar_not_blank (hchars _ (List.mem_of_mem_getLast? hc))).1
  · intro hunpadded
    obtain ⟨hcr, hlast⟩ := hunpadded pre post rfl hpre
    have htrim : trim pre = pre := by
      apply trim_eq_self _ hlast
      intro c hc
      -- the obs-fold test has ruled out SP and HTAB, and the line holds no LF
      rw [List.head?_append_of_ne_nil _ hne, hc] at hfold
      have hnlf : c ≠ LF := by
        rintro rfl
        exact hlf (List.mem_append_left _ (List.mem_of_mem_head? hc))
      have hncr : c ≠ CR := fun hcr' => hcr (hcr' ▸ hc)
      simp only [Option.some_beq_some, Bool.or_eq_false_iff] at hfold
      simp [isBlank, hfold.1, hfold.2, hnlf, hncr]
    refine ⟨pre, post, rfl, ?_, ?_⟩
    · rwa [htrim] at htok
    · rw [htrim]

theorem not_mem_stripCr {c : UInt8} {line : Bytes} (h : c ∉ line) : c ∉ stripCr line := by
  unfold stripCr
  split_ifs
  · exact fun hmem => h (List.mem_of_mem_dropLast hmem)
  · exact h

theorem not_mem_fieldLines {head line : Bytes} (h : line ∈ fieldLines head) : LF ∉ line := by
  obtain ⟨piece, hpiece, rfl⟩ := List.mem_map.mp (List.mem_filter.mp h).1
  apply not_mem_stripCr
  apply not_mem_of_mem_splitOn (s := head)
  rw [splitOn_eq_cons]
  exact List.mem_cons_of_mem _ hpiece

/-- The header lines of an accepted request have the strict form exactly when no field name is
padded: the first byte of each line is not CR and the byte before its first colon is no blank. -/
theorem parse_strict_field_lines_iff (raw : Bytes) (m : Message) (headEnd separator : ℕ)
    (h : parse raw = some m) (hb : headBounds raw = some (headEnd, separator)) :
    StrictFieldLines raw m ↔ ∀ line ∈ fieldLines (raw.take headEnd), UnpaddedName line := by
  obtain ⟨_, _, _, _, _, headers, _, _, hb', -, -, -, -, -, hf, -, -, hm⟩ :=
    (parse_eq_some_iff raw m).mp h
  obtain ⟨rfl, rfl⟩ := Prod.mk.inj (Option.some.inj (hb.symm.trans hb'))
  have hheaders : m.headers = headers := by rw [hm, Message.parseContentType_headers]
  have hall := (parseFields_eq_some_iff _ _).mp hf
  have hlf (line : Bytes) (hl : line ∈ fieldLines (raw.take headEnd)) := not_mem_fieldLines hl
  rw [strictFieldLines_iff m hb, hheaders]
  change List.Forall₂ _ (fieldLines (raw.take headEnd)) headers at hall
  generalize fieldLines (raw.take headEnd) = lines at hlf hall
  clear hheaders hm hf
  induction hall with
  | nil => simp
  | cons hline _ ih =>
    have htail := ih fun line hl => hlf line (List.mem_cons_of_mem _ hl)
    rw [List.forall₂_cons, List.forall_mem_cons, parseField_strict_iff (hlf _ (by simp)) hline]
    exact and_congr_right fun _ => htail

theorem parse_strict_field_lines_plain :
    ∃ m, parse (bytes "GET / HTTP/1.1\r\nHost: x\r\n\r\n") = some m ∧
      StrictFieldLines (bytes "GET / HTTP/1.1\r\nHost: x\r\n\r\n") m := by
  have hm : (parse (bytes "GET / HTTP/1.1\r\nHost: x\r\n\r\n")).isSome = true := by decide
  obtain ⟨m, hm⟩ := Option.isSome_iff_exists.mp hm
  refine ⟨m, hm, (parse_strict_field_lines_iff _ m 23 4 hm (by decide)).mpr ?_⟩
  have hlines : fieldLines ((bytes "GET / HTTP/1.1\r\nHost: x\r\n\r\n").take 23) =
      [bytes "Host" ++ COLON :: bytes " x"] := by decide
  rw [hlines, List.forall_mem_singleton]
  intro name rest hline hcolon
  obtain ⟨rfl, -⟩ := append_cons_inj (by decide) hcolon hline
  refine ⟨by decide, ?_⟩
  rintro c ⟨rfl⟩
  decide

/-- A space in front of the colon is trimmed away before the name is checked. -/
theorem padded_name_accepted :
    ¬ ∀ m, parse (bytes "GET / HTTP/1.1\r\nHost : x\r\n\r\n") = some m →
      StrictFieldLines (bytes "GET / HTTP/1.1\r\nHost : x\r\n\r\n") m := by
  intro hall
  have hm : (parse (bytes "GET / HTTP/1.1\r\nHost : x\r\n\r\n")).isSome = true := by decide
  obtain ⟨m, hm⟩ := Option.isSome_iff_exists.mp hm
  obtain ⟨headEnd, separator, hb, hstrict⟩ := hall m hm
  have hb' : headBounds (bytes "GET / HTTP/1.1\r\nHost : x\r\n\r\n") = some (24, 4) := by decide
  rw [hb'] at hb
  cases hb
  have hlines : fieldLines ((bytes "GET / HTTP/1.1\r\nHost : x\r\n\r\n").take 24) =
      [bytes "Host " ++ COLON :: bytes " x"] := by decide
  rw [hlines] at hstrict
  obtain ⟨_, _, ⟨name, rest, hline, htok, -⟩, -, -⟩ := List.forall₂_cons_left_iff.mp hstrict
  obtain ⟨rfl, -⟩ := append_cons_inj (by decide) (isToken_no_colon htok) hline
  exact absurd htok (by decide)

end Vermell.Http
