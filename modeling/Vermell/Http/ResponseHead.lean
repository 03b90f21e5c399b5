import Vermell.Http.Response
import Vermell.Text.PairLines

/-! What holds of a response head after any calls: clean lines, one empty line at the end, no name
twice, and every default there unless it was set. -/
namespace Vermell.Http
open Text

/-- A text without control bytes. -/
def Clean (s : Bytes) : Prop := ∀ c ∈ s, isDirty c = false

instance (s : Bytes) : Decidable (Clean s) :=
  List.decidableBAll (fun c => isDirty c = false) s

theorem clean_sanitize (s : Bytes) : Clean (sanitize s) := by
  intro c hc
  simpa using List.mem_takeWhile_imp hc

theorem Clean.sanitize {s : Bytes} (h : Clean s) : sanitize s = s :=
  List.takeWhile_eq_self_iff.mpr fun c hc => by simp [h c hc]

theorem clean_append_iff {s t : Bytes} : Clean (s ++ t) ↔ Clean s ∧ Clean t :=
  List.forall_mem_append

theorem Clean.not_mem {s : Bytes} (h : Clean s) {c : UInt8} (hc : isDirty c = true) : c ∉ s := by
  intro hmem
  rw [h c hmem] at hc
  cases hc

theorem Clean.cr {s : Bytes} (h : Clean s) : CR ∉ s := h.not_mem (by decide)

theorem isDirty_digit {c : UInt8} (h : isDigit c = true) : isDirty c = false := by
  simp only [isDigit, isDirty, Bool.and_eq_true, decide_eq_true_eq, Bool.or_eq_false_iff,
    decide_eq_false_iff_not, beq_eq_false_iff_ne, UInt8.le_iff_toNat_le, UInt8.lt_iff_toNat_lt,
    ne_eq, ← UInt8.toNat_inj] at h ⊢
  simp at h ⊢
  omega

theorem clean_toChars (n : ℕ) : Clean (toChars n) :=
  fun c hc => isDirty_digit ((toChars_digits n).2 c hc)

theorem clean_toCharsInt (z : ℤ) : Clean (toCharsInt z) := by
  unfold toCharsInt
  split_ifs
  · exact List.forall_mem_cons.mpr ⟨by decide, clean_toChars _⟩
  · exact clean_toChars _

theorem clean_reason (code : ℤ) : Clean (reason code) := by
  apply reason_of_forall
  · decide
  · decide +kernel

theorem clean_statusLine (code : ℤ) : Clean (Response.statusLine code) := by
  unfold Response.statusLine
  rw [clean_append_iff, clean_append_iff]
  exact ⟨⟨by decide, clean_toCharsInt code⟩,
    List.forall_mem_cons.mpr ⟨by decide, clean_reason code⟩⟩

namespace Response

/-- What every call keeps: names that are there, clean texts, no name twice. -/
structure Sound (r : Response) : Prop where
  named : ∀ f ∈ r.headers, f.1 ≠ []
  clean : ∀ f ∈ r.headers, Clean f.1 ∧ Clean f.2
  distinct : (Assoc.keys lower r.headers).Nodup

theorem mem_headers_set {r : Response} {name value : Bytes} {f : Bytes × Bytes}
    (h : f ∈ (r.set name value).headers) :
    f ∈ r.headers ∨ (sanitize name ≠ [] ∧ f.2 = sanitize value ∧
      (f.1 = sanitize name ∨ ∃ v, (f.1, v) ∈ r.headers)) := by
  unfold set at h
  split_ifs at h with hempty
  · exact Or.inl h
  · simp only [setHeader_eq] at h
    exact (Assoc.mem_put lower h).imp_right fun hput => ⟨hempty, hput.1, hput.2.2⟩

theorem Sound.set {r : Response} (h : r.Sound) (name value : Bytes) : (r.set name value).Sound := by
  constructor
  · intro f hf
    rcases mem_headers_set hf with hf | ⟨hname, -, heq | ⟨v, hv⟩⟩
    · exact h.named f hf
    · rwa [heq]
    · exact h.named (f.1, v) hv
  · intro f hf
    rcases mem_headers_set hf with hf | ⟨-, hval, heq | ⟨v, hv⟩⟩
    · exact h.clean f hf
    · rw [heq, hval]
      exact ⟨clean_sanitize name, clean_sanitize value⟩
    · rw [hval]
      exact ⟨(h.clean (f.1, v) hv).1, clean_sanitize value⟩
  · unfold Response.set
    split_ifs
    · exact h.distinct
    · simp only [setHeader_eq]
      exact Assoc.nodup_keys_put lower h.distinct

/-- A property of the names is kept by setting a header whose name has it. -/
theorem names_set {r : Response} {P : Bytes → Prop} (h : ∀ f ∈ r.headers, P f.1) {name : Bytes}
    (hname : sanitize name ≠ [] → P (sanitize name)) (value : Bytes) :
    ∀ f ∈ (r.set name value).headers, P f.1 := by
  intro f hf
  rcases mem_headers_set hf with hf | ⟨hne, -, heq | ⟨v, hv⟩⟩
  · exact h f hf
  · rw [heq]
    exact hname hne
  · exact h (f.1, v) hv

theorem not_mem_sanitize {c : UInt8} {name : Bytes} (h : c ∉ name) : c ∉ sanitize name :=
  fun hmem => h (List.takeWhile_subset _ hmem)

/-- The names that the framework sends with every response. -/
def frameworkNames : List Bytes :=
  [bytes "Server", bytes "Content-Type", bytes "Content-Length", bytes "Accept-Ranges",
    bytes "X-Content-Type-Options", bytes "Connection"]

theorem keys_defaults (size : ℕ) :
    Assoc.keys lower (frontDefaults ++ backDefaults size) = frameworkNames.map lower := rfl

theorem mem_defaults {size : ℕ} {f : Bytes × Bytes} (h : f ∈ frontDefaults ++ backDefaults size) :
    f.1 ≠ [] ∧ COLON ∉ f.1 ∧ Clean f.1 ∧ Clean f.2 := by
  have hsize := clean_toChars size
  simp only [frontDefaults, backDefaults, List.cons_append, List.nil_append, List.mem_cons,
    List.not_mem_nil, or_false] at h
  rcases h with rfl | rfl | rfl | rfl | rfl | rfl
  on_goal 3 =>
    have hname : bytes "Content-Length" ≠ [] ∧ COLON ∉ bytes "Content-Length" ∧
        Clean (bytes "Content-Length") := by decide
    exact ⟨hname.1, hname.2.1, hname.2.2, hsize⟩
  all_goals decide

theorem mem_fields {r : Response} {f : Bytes × Bytes} (h : f ∈ r.fields) :
    f ∈ r.headers ∨ f ∈ frontDefaults ++ backDefaults r.body.length := by
  simp only [fields, Assoc.fill, List.mem_append, Assoc.mem_missing_iff] at h ⊢
  tauto

theorem Sound.fields_clean {r : Response} (h : r.Sound) :
    ∀ f ∈ r.fields, f.1 ≠ [] ∧ Clean f.1 ∧ Clean f.2 := by
  intro f hf
  cases mem_fields hf with
  | inl hf =>
    exact ⟨h.named f hf, h.clean f hf⟩
  | inr hf =>
    obtain ⟨hname, -, hclean⟩ := mem_defaults hf
    exact ⟨hname, hclean⟩

theorem Sound.fields_distinct {r : Response} (h : r.Sound) :
    (Assoc.keys lower r.fields).Nodup := by
  refine Assoc.nodup_keys_fill lower h.distinct ?_
  rw [keys_defaults]
  decide

/-- The value a header of the head has, ignoring the case of its name. -/
theorem get_fields (r : Response) (k : Bytes) : Assoc.get lower k r.fields =
    (Assoc.get lower k r.headers).or
      (Assoc.get lower k (frontDefaults ++ backDefaults r.body.length)) :=
  Assoc.get_fill lower k _ _ _

end Response

/-- A header line without its CRLF. -/
def fieldText (f : Bytes × Bytes) : Bytes := f.1 ++ bytes ": " ++ f.2

theorem headText_eq (status : Bytes) (fields : List (Bytes × Bytes)) :
    headText status fields = joinLines CR LF (status :: fields.map fieldText ++ [[]]) := by
  have hline : Response.headerLine = fun f => fieldText f ++ [CR, LF] := by
    funext f
    rfl
  have hfields : fields.flatMap Response.headerLine = joinLines CR LF (fields.map fieldText) := by
    rw [hline, joinLines, List.flatMap_map]
  rw [headText, hfields, joinLines_append, joinLines_cons]
  simp [CRLF]

theorem clean_fieldText {f : Bytes × Bytes} (h : Clean f.1 ∧ Clean f.2) : Clean (fieldText f) := by
  rw [fieldText, clean_append_iff, clean_append_iff]
  exact ⟨⟨h.1, by decide⟩, h.2⟩

/-- A head of clean lines with a name in each field. -/
structure HeadShape (head status : Bytes) (fields : List (Bytes × Bytes)) : Prop where
  text : head = headText status fields
  status_full : status ≠ []
  status_clean : Clean status
  fields_clean : ∀ f ∈ fields, f.1 ≠ [] ∧ Clean f.1 ∧ Clean f.2

namespace HeadShape
variable {head status : Bytes} {fields : List (Bytes × Bytes)} (h : HeadShape head status fields)
include h

theorem lines_clean : ∀ line ∈ status :: fields.map fieldText, line ≠ [] ∧ Clean line := by
  refine List.forall_mem_cons.mpr ⟨⟨h.status_full, h.status_clean⟩, ?_⟩
  intro line hline
  obtain ⟨f, hf, rfl⟩ := List.mem_map.mp hline
  obtain ⟨hname, hclean⟩ := h.fields_clean f hf
  exact ⟨by simp [fieldText, hname], clean_fieldText hclean⟩

/-- The empty line stands at the end of the head and nowhere else. -/
theorem blank_line : ∀ p s, head = p ++ CRLF ++ CRLF ++ s → s = [] := by
  intro p s heq
  refine joinLines_blank (a := CR) (b := LF) (p := p) (by decide)
    (fun line hline => (h.lines_clean line hline).2.cr)
    (fun line hline => (h.lines_clean line hline).1)
    ?_
  rw [← headText_eq, ← h.text, heq]
  simp [CRLF]

/-- A control byte of the head belongs to a CRLF. -/
theorem controls : ∀ p c s, head = p ++ c :: s → isDirty c = true →
    (c = CR ∧ ∃ s', s = LF :: s') ∨ (c = LF ∧ ∃ p', p = p' ++ [CR]) := by
  intro p c s heq hc
  rw [h.text, headText_eq] at heq
  rcases joinLines_element heq with ⟨line, hline, hmem⟩ | hpair
  · rcases List.mem_append.mp hline with hline | hline
    · have hclean := (h.lines_clean line hline).2 c hmem
      simp [hclean] at hc
    · simp [List.mem_singleton.mp hline] at hmem
  · exact hpair

end HeadShape

namespace Response

theorem Sound.headShape {r : Response} (h : r.Sound) :
    HeadShape r.head (statusLine r.code) r.fields where
  text := r.head_eq
  status_full := by simp [statusLine]
  status_clean := clean_statusLine r.code
  fields_clean := h.fields_clean

theorem Sound.count_framework {r : Response} (h : r.Sound) :
    ∀ name ∈ frameworkNames, (Assoc.keys lower r.fields).count (lower name) = 1 := by
  intro name hname
  refine List.count_eq_one_of_mem h.fields_distinct ?_
  by_contra hnone
  have hget := (Assoc.get_eq_none_iff lower).mpr hnone
  rw [get_fields, Option.or_eq_none_iff] at hget
  refine (Assoc.get_eq_none_iff lower).mp hget.2 ?_
  rw [keys_defaults]
  exact List.mem_map_of_mem hname

theorem mem_fields_contentLength {r : Response}
    (h : ∀ f ∈ r.headers, lower f.1 ≠ lower (bytes "Content-Length")) :
    (bytes "Content-Length", toChars r.body.length) ∈ r.fields := by
  have hkey : lower (bytes "Content-Length") ∉ Assoc.keys lower r.headers := by
    intro hmem
    obtain ⟨f, hf, heq⟩ := List.mem_map.mp hmem
    exact h f hf heq
  have hmissing : (bytes "Content-Length", toChars r.body.length) ∈
      Assoc.missing lower (backDefaults r.body.length) r.headers :=
    (Assoc.mem_missing_iff lower).mpr ⟨by simp [backDefaults], hkey⟩
  exact List.mem_append_right _ (List.mem_append_right _ hmissing)

/-- The calls that build a response. -/
inductive Call
  | status (code : ℤ)
  | type (mime : Bytes)
  | set (name value : Bytes)
  | body (content : Bytes)

def apply (r : Response) : Call → Response
  | .status code => r.status code
  | .type mime => r.type mime
  | .set name value => r.set name value
  | .body content => r.setBody content

/-- The response after calls on a fresh one. -/
def after (calls : List Call) : Response := calls.foldl apply {}

theorem Sound.apply {r : Response} (h : r.Sound) (call : Call) : (r.apply call).Sound := by
  cases call with
  | status code => exact ⟨h.named, h.clean, h.distinct⟩
  | type mime => exact h.set (bytes "Content-Type") mime
  | set name value => exact h.set name value
  | body content => exact ⟨h.named, h.clean, h.distinct⟩

theorem sound_fresh : Sound {} := ⟨by simp, by simp, by simp [Assoc.keys]⟩

theorem sound_after (calls : List Call) : (after calls).Sound := by
  unfold after
  induction calls using List.reverseRecOn with
  | nil => exact sound_fresh
  | append_singleton calls call ih =>
    rw [List.foldl_append]
    exact ih.apply call

/-- The names of the headers are those that were set, and the one that `type` sets. -/
theorem names_after {P : Bytes → Prop} (htype : P (bytes "Content-Type")) {calls : List Call}
    (h : ∀ name value, .set name value ∈ calls → sanitize name ≠ [] → P (sanitize name)) :
    ∀ f ∈ (after calls).headers, P f.1 := by
  unfold after
  induction calls using List.reverseRecOn with
  | nil => simp
  | append_singleton calls call ih =>
    have hinit := ih fun name value hmem => h name value (by simp [hmem])
    rw [List.foldl_append]
    cases call with
    | status code => exact hinit
    | type mime =>
      have hsame : sanitize (bytes "Content-Type") = bytes "Content-Type" := by decide
      exact names_set hinit (fun _ => hsame ▸ htype) mime
    | set name value => exact names_set hinit (h name value (by simp)) value
    | body content => exact hinit

/-- After any calls whose header names have no colon, the head is a status line, header lines and
one empty line, with nothing in them that could end a line; no name occurs twice, and those of the
framework occur once. -/
theorem head_wellFormed (calls : List Call)
    (hnames : ∀ name value, .set name value ∈ calls → COLON ∉ name) :
    ∃ fields, (after calls).head = headText (statusLine (after calls).code) fields ∧
      (∀ f ∈ fields, f.1 ≠ [] ∧ COLON ∉ f.1) ∧
      (∀ p s, (after calls).head = p ++ CRLF ++ CRLF ++ s → s = []) ∧
      (∀ p c s, (after calls).head = p ++ c :: s → c < 0x20 ∨ c = 0x7f →
        (c = CR ∧ ∃ s', s = LF :: s') ∨ (c = LF ∧ ∃ p', p = p' ++ [CR])) ∧
      fields.Pairwise (fun f g => iequals f.1 g.1 = false) ∧
      (∀ name ∈ frameworkNames, (fields.filter fun f => iequals f.1 name).length = 1) ∧
      ((∀ name value, .set name value ∈ calls →
          iequals (sanitize name) (bytes "Content-Length") = false) →
        (bytes "Content-Length", toChars (after calls).body.length) ∈ fields) := by
  have hsound := sound_after calls
  have hshape := hsound.headShape
  refine ⟨(after calls).fields, hshape.text, ?_, hshape.blank_line, ?_, ?_, ?_, ?_⟩
  · have hcolon : ∀ f ∈ (after calls).headers, COLON ∉ f.1 :=
      names_after (P := fun n => COLON ∉ n) (by decide) fun name value hmem _ =>
        not_mem_sanitize (hnames name value hmem)
    intro f hf
    refine ⟨(hshape.fields_clean f hf).1, ?_⟩
    cases mem_fields hf with
    | inl hf =>
      exact hcolon f hf
    | inr hf =>
      exact (mem_defaults hf).2.1
  · intro p c s heq hc
    exact hshape.controls p c s heq (by simpa [isDirty] using hc)
  · refine (List.pairwise_map.mp hsound.fields_distinct).imp ?_
    intro f g hne
    rw [Bool.eq_false_iff]
    exact mt (iequals_iff f.1 g.1).mp hne
  · intro name hname
    have hcount := hsound.count_framework name hname
    have hsame : (fun f : Bytes × Bytes => iequals f.1 name) =
        fun f => lower f.1 == lower name := by
      funext f
      rw [Bool.eq_iff_iff, iequals_iff, beq_iff_eq]
    rw [Assoc.keys, List.count_eq_countP, List.countP_map] at hcount
    rw [hsame, ← List.countP_eq_length_filter]
    exact hcount
  · intro hunset
    refine mem_fields_contentLength (names_after (P := fun n => lower n ≠ _) (by decide) ?_)
    intro name value hmem _ heq
    have := hunset name value hmem
    rw [(iequals_iff _ _).mpr heq] at this
    cases this

theorem head_wellFormed_tainted :
    let calls := [Call.set (bytes "X-Evil") (bytes "a\r\nSet-Cookie: b"), .status 404]
    ∀ p s, (after calls).head = p ++ CRLF ++ CRLF ++ s → s = [] := by
  intro calls
  obtain ⟨fields, -, -, hblank, -⟩ := head_wellFormed calls (by
    intro name value hmem
    obtain ⟨rfl, -⟩ : name = bytes "X-Evil" ∧ value = _ := by simpa [calls] using hmem
    decide)
  exact hblank

end Response
end Vermell.Http
