import Vermell.Http.ParseFraming

/-! The line-ending policy. `version_at_least_11` looks at the first `HTTP/` of the request line,
`parse` at its third part; they differ when the target itself holds that text. -/
namespace Vermell.Http
open Text

/-- A version `HTTP/d.d` that is 1.1 or newer. -/
def atLeast11 (version : Bytes) : Bool :=
  isValidVersion version &&
    (version.getD 5 0 > 49 || (version.getD 5 0 == 49 && version.getD 7 0 ≥ 49))

/-- The head ends in CRLFCRLF and every LF through it directly follows a CR. -/
def StrictEndings (raw : Bytes) : Prop :=
  ∃ headEnd, headBounds raw = some (headEnd, 4) ∧ Preceded LF CR (raw.take (headEnd + 4))

/-- The request line is `front HTTP/d.d` with a version 1.1 or newer. -/
def DeclaresVersion (line front : Bytes) : Prop :=
  ∃ version, stripCr line = front ++ SP :: version ∧ atLeast11 version = true

/-- HTTP/1.1 and newer is accepted, by `parse` and by `inspect`, only with strict endings. -/
def LineEndingPolicy (raw : Bytes) : Prop :=
  (∀ m, parse raw = some m → atLeast11 m.version = true → StrictEndings raw) ∧
  ∀ headEnd separator front, headBounds raw = some (headEnd, separator) →
    DeclaresVersion (requestLine (raw.take headEnd)) front →
    (inspect raw).framing = .complete → StrictEndings raw

/-- A request that needs strict endings and lacks them, is sound and complete otherwise, and holds
the text `HTTP/` in its request line in front of the version. -/
def LaxHiddenVersion (raw : Bytes) : Prop :=
  ∃ headEnd separator front, headBounds raw = some (headEnd, separator) ∧
    DeclaresVersion (requestLine (raw.take headEnd)) front ∧
    (∃ i, bytes "HTTP/" <+: front.drop i) ∧
    (scanHead (raw.take headEnd)).tooMany = false ∧ (scanHead (raw.take headEnd)).bad = false ∧
    (scanHead (raw.take headEnd)).transferEncoding = false ∧
    (inspectBody (scanHead (raw.take headEnd)) (headEnd + separator) raw).framing = .complete ∧
    ¬ StrictEndings raw

theorem isValidVersion_iff (v : Bytes) : isValidVersion v = true ↔
    v.length = 8 ∧ bytes "HTTP/" <+: v ∧ isDigit (v.getD 5 0) = true ∧ v.getD 6 0 = DOT ∧
      isDigit (v.getD 7 0) = true := by
  simp only [isValidVersion, Bool.and_eq_true, beq_iff_eq, List.isPrefixOf_iff_prefix]
  tauto

/-- `HTTP/` holds no space, so it occurs on one side of every space. -/
theorem http_occurs_append {front version : Bytes} {i : ℕ}
    (h : bytes "HTTP/" <+: (front ++ SP :: version).drop i) :
    bytes "HTTP/" <+: front.drop i ∨ front.length < i := by
  by_cases hi : front.length < i
  · exact Or.inr hi
  left
  have hat := (occurs_iff_getElem? _ _ _).mp h
  have hlen : i + 5 ≤ front.length := by
    by_contra hlt
    -- the space would be one of the five bytes
    have hk := hat (front.length - i) (by change _ < 5; omega)
    rw [show i + (front.length - i) = front.length by omega,
      List.getElem?_append_right le_rfl] at hk
    simp only [Nat.sub_self, List.getElem?_cons_zero, Option.some.injEq] at hk
    have hsp : SP ∉ bytes "HTTP/" := by decide
    exact hsp (hk ▸ List.getElem_mem _)
  refine (occurs_iff_getElem? _ _ _).mpr fun k hk => ?_
  have hk5 : k < 5 := hk
  rw [← hat k hk, List.getElem?_append_left (by omega)]

/-- Without the text in front, the version that counts is the one at the end of the line. -/
theorem versionAtLeast11_of_front {line front : Bytes} (h : DeclaresVersion line front)
    (hfront : ¬ ∃ i, bytes "HTTP/" <+: front.drop i) : versionAtLeast11 line = true := by
  obtain ⟨version, hline, hver⟩ := h
  simp only [atLeast11, Bool.and_eq_true, isValidVersion_iff] at hver
  obtain ⟨⟨hlen, hpre, hmajor, hdot, hminor⟩, hge⟩ := hver
  have hfind : find (bytes "HTTP/") (front ++ SP :: version) = some (front.length + 1) := by
    refine (find_eq_some_iff _ _ _).mpr ⟨by simp, by simpa using hpre, fun j hj hocc => ?_⟩
    cases http_occurs_append hocc with
    | inl h =>
      exact hfront ⟨j, h⟩
    | inr h =>
      omega
  have hat (k : ℕ) : (front ++ SP :: version).getD (front.length + 1 + k) 0 = version.getD k 0 := by
    rw [List.getD_eq_getElem?_getD, getElem?_append_cons, ← List.getD_eq_getElem?_getD]
  unfold versionAtLeast11
  simp only [hline, hfind, hat, hmajor, hdot, hminor, List.length_append, List.length_cons, hlen]
  rw [if_neg (by omega)]
  simp only [Bool.not_true, bne_self_eq_false, Bool.or_self, Bool.false_eq_true, if_false]
  simp only [Bool.or_eq_true, Bool.and_eq_true, decide_eq_true_eq, beq_iff_eq] at hge
  rcases hge with hgt | ⟨heq, hmin⟩
  · have hnlt : ¬ version.getD 5 0 < 49 := by
      rw [gt_iff_lt, UInt8.lt_iff_toNat_lt] at hgt
      rw [UInt8.lt_iff_toNat_lt]
      omega
    rw [if_neg hnlt, if_pos hgt]
  · rw [heq, if_neg (by decide), if_neg (by decide)]
    exact decide_eq_true hmin

/-- With it, the line counts as older than HTTP/1.1. -/
theorem versionAtLeast11_of_hidden {line front : Bytes} (h : DeclaresVersion line front)
    (hfront : ∃ i, bytes "HTTP/" <+: front.drop i) : versionAtLeast11 line = false := by
  obtain ⟨version, hline, hver⟩ := h
  obtain ⟨i, hi⟩ := hfront
  have hi5 := occurs_length (by decide) hi
  have hlen : version.length = 8 := by
    simp only [atLeast11, Bool.and_eq_true, isValidVersion_iff] at hver
    exact hver.1.1
  unfold versionAtLeast11
  cases hf : find (bytes "HTTP/") (stripCr line) with
  | none => simp only [hf]
  | some k =>
    obtain ⟨-, -, hmin⟩ := (find_eq_some_iff _ _ _).mp hf
    have hki : k ≤ i := by
      by_contra hlt
      refine hmin i (by omega) ?_
      rw [hline, List.drop_append_of_le_length (by omega)]
      exact hi.trans (List.prefix_append _ _)
    have hi5' : i + 5 ≤ front.length := hi5
    simp only [hf]
    apply if_pos
    rw [hline, List.length_append, List.length_cons, hlen]
    omega

/-- The policy check of a new enough version is what `StrictEndings` asks for. -/
theorem lineEndingsOk_strict {raw : Bytes} {headEnd separator : ℕ}
    (hb : headBounds raw = some (headEnd, separator))
    (hver : versionAtLeast11 (requestLine (raw.take headEnd)) = true)
    (hends : lineEndingsOk (raw.take headEnd) separator = true) : StrictEndings raw := by
  unfold lineEndingsOk at hends
  rw [splitOn_eq_cons] at hends
  simp only [hver, Bool.not_true, Bool.false_eq_true, if_false] at hends
  split_ifs at hends with hsep hline
  obtain rfl : separator = 4 := not_not.mp hsep
  have hlines := List.all_eq_true.mp hends
  obtain ⟨hterm, hfirst⟩ := (headBounds_eq_some_iff _ _ _).mp hb
  have hnil : [] ∉ (headerLines (raw.take headEnd)).dropLast := by
    intro hmem
    obtain ⟨i, hi, hi'⟩ := exists_pair_of_nil_mem (s := raw.take headEnd) (a := LF) hmem
    have hlt : i < headEnd := by
      have hlen := (List.getElem?_eq_some_iff.mp hi).1
      rw [List.length_take] at hlen
      omega
    rw [List.getElem?_take] at hi hi'
    split_ifs at hi hi'
    exact hfirst i hlt 2 (Or.inr ⟨rfl, (lflf_at_iff _ _).mpr ⟨hi, hi'⟩⟩)
  have hhead : Preceded LF CR (raw.take headEnd) := by
    rw [preceded_iff_splitOn (by decide), splitOn_eq_cons]
    intro l hl
    cases hrest : headerLines (raw.take headEnd) with
    | nil => simp [hrest] at hl
    | cons l' ls =>
      rw [hrest, List.dropLast_cons_of_ne_nil (by simp), ← hrest, List.mem_cons] at hl
      rcases hl with rfl | hl
      · exact not_not.mp hline
      · have hok := hlines l hl
        simp only [Bool.or_eq_true, List.isEmpty_iff, beq_iff_eq] at hok
        apply hok.resolve_left
        intro hempty
        exact hnil (hempty ▸ hl)
  refine ⟨headEnd, hb, ?_⟩
  have hocc : CRLFCRLF <+: raw.drop headEnd := hterm.elim (fun h => h.2) (fun h => by omega)
  have hsplit : raw.take (headEnd + 4) = raw.take headEnd ++ CRLFCRLF := by
    rw [List.take_add]
    exact congrArg _ (List.prefix_iff_eq_take.mp hocc).symm
  rw [hsplit]
  apply hhead.append
  rw [preceded_iff_splitOn (by decide)]
  decide

theorem parseRequestLine_declares {line method target version : Bytes}
    (h : parseRequestLine line = some (method, target, version))
    (hver : atLeast11 version = true) : ∃ front, DeclaresVersion line front := by
  simp only [parseRequestLine, Option.bind_eq_bind, Option.bind_eq_some_iff, Option.guard_eq_some',
    Option.pure_def, Option.some.injEq, Prod.mk.injEq] at h
  obtain ⟨sp1, hsp1, -, -, sp2, hsp2, -, -, -, -, -, -, rfl, rfl, rfl⟩ := h
  have hne : (line.drop (sp1 + 1)).drop (sp2 + 1) ≠ [] := by
    intro hnil
    rw [hnil] at hver
    exact absurd hver (by decide)
  refine ⟨line.take sp1 ++ SP :: (line.drop (sp1 + 1)).take sp2, _, ?_, hver⟩
  have hrest := eq_append_of_idxOf? hsp2
  have hline := eq_append_of_idxOf? hsp1
  rw [hrest, ← List.cons_append, ← List.append_assoc] at hline
  have hstrip := congrArg stripCr hline
  rwa [List.append_cons, stripCr_append _ hne, ← List.append_cons] at hstrip

/-- A complete request with a new enough version has strict endings or hides its version. -/
theorem strictEndings_or_hidden {raw front : Bytes} {headEnd separator : ℕ}
    (hb : headBounds raw = some (headEnd, separator))
    (hdecl : DeclaresVersion (requestLine (raw.take headEnd)) front)
    (hv : headVerdict (raw.take headEnd) separator = none)
    (hbody : (inspectBody (scanHead (raw.take headEnd)) (headEnd + separator) raw).framing =
      .complete) : StrictEndings raw ∨ LaxHiddenVersion raw := by
  obtain ⟨hmany, hbad, hte, hends⟩ := (headVerdict_eq_none_iff _ _).mp hv
  by_cases hhidden : ∃ i, bytes "HTTP/" <+: front.drop i
  · by_cases hstrict : StrictEndings raw
    · exact Or.inl hstrict
    · exact Or.inr ⟨_, _, front, hb, hdecl, hhidden, hmany, hbad, hte, hbody, hstrict⟩
  · exact Or.inl (lineEndingsOk_strict hb (versionAtLeast11_of_front hdecl hhidden) hends)

/-- The policy holds of every buffer but those that hide their version from its check. -/
theorem line_ending_policy_iff (raw : Bytes) : LineEndingPolicy raw ↔ ¬ LaxHiddenVersion raw := by
  constructor
  · rintro ⟨-, hinspect⟩ ⟨headEnd, separator, front, hb, hdecl, hhidden, hmany, hbad, hte, hbody,
      hlax⟩
    have hends : lineEndingsOk (raw.take headEnd) separator = true := by
      unfold lineEndingsOk
      rw [splitOn_eq_cons]
      simp [versionAtLeast11_of_hidden hdecl hhidden]
    have hv := (headVerdict_eq_none_iff _ _).mpr ⟨hmany, hbad, hte, hends⟩
    apply hlax
    apply hinspect headEnd separator front hb hdecl
    rw [inspect_of_headBounds hb, hv]
    exact hbody
  · intro hlax
    constructor
    · intro m h hver
      obtain ⟨headEnd, separator, method, target, version, headers, body, contentLength, hb, -, -,
        -, -, hrl, -, -, hbody, rfl⟩ := (parse_eq_some_iff raw m).mp h
      obtain ⟨hv, hno, hex⟩ := parse_scan hb h
      rw [Message.parseContentType_version] at hver
      obtain ⟨front, hdecl⟩ := parseRequestLine_declares hrl hver
      have hcomplete := parseBody_complete hno hex (headBounds_le hb).1 hbody
      exact (strictEndings_or_hidden hb hdecl hv hcomplete).resolve_right hlax
    · intro headEnd separator front hb hdecl hcomplete
      rw [inspect_of_headBounds hb] at hcomplete
      cases hv : headVerdict (raw.take headEnd) separator with
      | some framing =>
        have hrej := headVerdict_rejects hv
        simp only [hv] at hcomplete
        rw [hcomplete] at hrej
        simp [Framing.Rejects] at hrej
      | none =>
        simp only [hv] at hcomplete
        exact (strictEndings_or_hidden hb hdecl hv hcomplete).resolve_right hlax

/-- A bare-LF HTTP/1.1 request with `/HTTP/` as its target is taken. -/
theorem line_ending_policy_fails :
    ¬ LineEndingPolicy (bytes "GET /HTTP/ HTTP/1.1\nHost: x\n\n") := by
  rintro ⟨hparse, -⟩
  have hver : (parse (bytes "GET /HTTP/ HTTP/1.1\nHost: x\n\n")).map Message.version =
      some (bytes "HTTP/1.1") := by decide +kernel
  have hb : headBounds (bytes "GET /HTTP/ HTTP/1.1\nHost: x\n\n") = some (27, 2) := by decide
  obtain ⟨m, hm, hversion⟩ := Option.map_eq_some_iff.mp hver
  obtain ⟨headEnd, hb', -⟩ := hparse m hm (by rw [hversion]; decide)
  rw [hb] at hb'
  simp at hb'

end Vermell.Http
