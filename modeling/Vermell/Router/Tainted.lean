import Vermell.Http.HeadFields
import Vermell.Router.Query

/-! What a header string that a handler passes does to the head. Each is meant as one header; the
block that carries them to `apply_headers` is cut at every LF, the ones inside a string included. -/
namespace Vermell.Router
open Http Text

/-- The name that a header string is meant to set: its text before the first colon. -/
def ownName (header : Bytes) : Bytes := sanitize (header.takeWhile (· ≠ COLON))

/-- The header strings of the calls of a handler. -/
def headerStrings (calls : List Query.Call) : List Bytes := calls.flatMap Query.Call.strings

/-- The head of the answer that a handler makes behind these calls. -/
def answerHead (calls : List Query.Call) (body type : Bytes) (status : ℤ) : Bytes :=
  ((({} : Query).after calls).answer body type status).last.head

/-- Besides Content-Type and the defaults, no more header lines than strings, each with the name of
one of them. -/
def OneLineEach (calls : List Query.Call) : Prop :=
  ∀ body type status, ∃ extra : List (Bytes × Bytes), extra.length ≤ (headerStrings calls).length ∧
    (∀ f ∈ extra, ∃ h ∈ headerStrings calls, iequals f.1 (ownName h) = true) ∧
    ∀ f, HasHeader (answerHead calls body type status) f →
      iequals f.1 (bytes "Content-Type") = true ∨
        f ∈ Response.frontDefaults ++ Response.backDefaults body.length ∨ f ∈ extra

/-- Whatever else a handler passes, the string has no say in headers of other names. -/
def Isolated (h : Bytes) : Prop :=
  ∀ before after body type status f, iequals f.1 (ownName h) = false →
    (HasHeader (answerHead (before ++ .setHeaders h :: after) body type status) f ↔
      HasHeader (answerHead (before ++ after) body type status) f)

/-- Every line of the string that sets a header sets the one the string is meant to set. -/
def OneHeader (h : Bytes) : Prop :=
  ∀ line ∈ h.splitOn LF, ∀ name value, entryOf line = some (name, value) →
    iequals name (ownName h) = true

theorem answerHead_eq (calls : List Query.Call) (body type : Bytes) (status : ℤ) :
    answerHead calls body type status =
      (prepared body type (generate (headerStrings calls)) status).head := by
  have hheaders := Query.headers_after {} calls
  simp only [answerHead, Query.answer, prepare, wire, hheaders]
  rfl

/-- The block is the strings one behind the other, so its entries are theirs. -/
theorem blockEntries_generate (hs : List Bytes) :
    blockEntries (generate hs) = hs.flatMap blockEntries := by
  induction hs with
  | nil => rfl
  | cons h rest ih =>
    have hcons : generate (h :: rest) = h ++ LF :: generate rest := by simp [generate]
    have hrest : ((generate rest).splitOn LF).filterMap entryOf = rest.flatMap blockEntries := ih
    rw [blockEntries, hcons, List.splitOn_append_cons_self, List.filterMap_append, hrest]
    rfl

theorem mem_blockEntries {h : Bytes} {f : Bytes × Bytes} (hf : f ∈ blockEntries h) :
    ∃ line ∈ h.splitOn LF, entryOf line = some f := List.mem_filterMap.mp hf

/-- The headers of an answer: those of the strings, filed in order. -/
theorem headers_answer (hs : List Bytes) (body type : Bytes) (status : ℤ) :
    (prepared body type (generate hs) status).headers =
      Assoc.putAll lower (hs.flatMap blockEntries) [(bytes "Content-Type", sanitize type)] := by
  rw [prepared_headers, blockEntries_generate]

theorem hasHeader_answer (calls : List Query.Call) (body type : Bytes) (status : ℤ)
    (f : Bytes × Bytes) : HasHeader (answerHead calls body type status) f ↔
      f ∈ (prepared body type (generate (headerStrings calls)) status).fields := by
  rw [answerHead_eq]
  exact (legible_prepared _ _ _ _).hasHeader_iff f

/-- A string that sets only its own header leaves the others alone. -/
theorem OneHeader.isolated {h : Bytes} (hone : OneHeader h) : Isolated h := by
  intro before after body type status f hname
  have hnone : Assoc.under lower (lower f.1) (blockEntries h) = [] := by
    rw [Assoc.under, List.filter_eq_nil_iff]
    intro e he
    obtain ⟨line, hline, hentry⟩ := mem_blockEntries he
    have hown := (iequals_iff _ _).mp (hone line hline e.1 e.2 hentry)
    have hother := mt (iequals_iff f.1 (ownName h)).mpr (by simp [hname])
    simpa [hown] using fun heq => hother heq.symm
  have hwith : headerStrings (before ++ .setHeaders h :: after) =
      headerStrings before ++ h :: headerStrings after := by
    simp [headerStrings, Query.Call.strings]
  have hwithout : headerStrings (before ++ after) = headerStrings before ++ headerStrings after :=
    List.flatMap_append
  rw [hasHeader_answer, hasHeader_answer, hwith, hwithout]
  refine Assoc.mem_fill_congr lower ?_
  rw [headers_answer, headers_answer, Assoc.under_putAll, Assoc.under_putAll, List.flatMap_append,
    List.flatMap_cons, List.flatMap_append, Assoc.under_append, Assoc.under_append, hnone,
    List.nil_append, Assoc.under_append]

/-- A string with a line that sets another header overrides that header of an earlier string. -/
theorem Isolated.oneHeader {h : Bytes} (hiso : Isolated h) : OneHeader h := by
  intro line hline name value hentry
  by_contra hother
  rw [Bool.not_eq_true] at hother
  obtain ⟨hne, hclean, hcolon⟩ := entryOf_clean hentry
  -- the value that the string gives to that header in the end
  have hmem : lower name ∈ Assoc.keys lower (blockEntries h).reverse :=
    Assoc.mem_keys_of_mem lower (e := (name, value))
      (List.mem_reverse.mpr (List.mem_filterMap.mpr ⟨line, hline, hentry⟩))
  obtain ⟨v, hv⟩ := Option.ne_none_iff_exists'.mp
    fun hnone => (Assoc.get_eq_none_iff lower).mp hnone hmem
  -- an earlier string gives it another one
  obtain ⟨w, hwclean, hwsp, hwlf, hwv⟩ :
      ∃ w : Bytes, Clean w ∧ w.head? ≠ some SP ∧ LF ∉ w ∧ w ≠ v := by
    by_cases hva : v = bytes "a"
    · exact ⟨bytes "b", by decide, by decide, by decide, by rw [hva]; decide⟩
    · exact ⟨bytes "a", by decide, by decide, by decide, fun heq => hva heq.symm⟩
  have hfirst : blockEntries (name ++ COLON :: w) = [(name, w)] := by
    have hlf : LF ∉ name ++ COLON :: w := by
      simp only [List.mem_append, List.mem_cons, not_or]
      exact ⟨hclean.not_mem (by decide), by decide, hwlf⟩
    simp [blockEntries, List.splitOn_eq_singleton hlf,
      entryOf_header hne hclean hcolon hwclean hwsp]
  have hwithout := headers_answer [name ++ COLON :: w] [] [] 200
  have hwith := headers_answer [name ++ COLON :: w, h] [] [] 200
  simp only [List.flatMap_cons, List.flatMap_nil, List.append_nil, hfirst] at hwithout hwith
  have hlegible := legible_prepared [] [] (generate [name ++ COLON :: w]) 200
  have hlegible' := legible_prepared [] [] (generate [name ++ COLON :: w, h]) 200
  obtain ⟨a, ha, hkey⟩ := (Assoc.get_eq_some_iff lower hlegible.sound.distinct
    (k := lower name) (b := w)).mp (by rw [hwithout, Assoc.get_putAll]; simp [Assoc.get])
  have hdiff : iequals a (ownName h) = false := by
    rw [Bool.eq_false_iff, ne_eq, iequals_iff, hkey, ← iequals_iff, hother]
    simp
  have hstay := hiso [.setHeaders (name ++ COLON :: w)] [] [] [] 200 (a, w) hdiff
  rw [hasHeader_answer, hasHeader_answer] at hstay
  have hin := hstay.mpr ((Assoc.mem_fill_iff lower).mpr (Or.inl ha))
  have hget := (Assoc.get_eq_some_iff lower hlegible'.sound.fields_distinct).mpr ⟨a, hin, hkey⟩
  rw [Response.get_fields, hwith, Assoc.get_putAll, List.reverse_append, Assoc.get_append,
    hv] at hget
  exact hwv (Option.some.inj hget).symm

/-- Strings that set only their own headers give no more header lines than there are strings. -/
theorem oneLineEach {calls : List Query.Call} (hone : ∀ h ∈ headerStrings calls, OneHeader h) :
    OneLineEach calls := by
  intro body type status
  have hlegible := legible_prepared body type (generate (headerStrings calls)) status
  have hheaders := headers_answer (headerStrings calls) body type status
  set r := prepared body type (generate (headerStrings calls)) status
  have hnamed : ∀ f ∈ r.headers, iequals f.1 (bytes "Content-Type") = false →
      ∃ h ∈ headerStrings calls, iequals f.1 (ownName h) = true := by
    intro f hf hct
    have hkey := Assoc.mem_keys_of_mem lower hf
    rw [hheaders] at hkey
    cases Assoc.keys_putAll lower hkey with
    | inl hkey =>
      obtain ⟨e, he, hsame⟩ := List.mem_map.mp hkey
      obtain ⟨h, hh, he⟩ := List.mem_flatMap.mp he
      obtain ⟨line, hline, hentry⟩ := mem_blockEntries he
      have hown := (iequals_iff _ _).mp (hone h hh line hline e.1 e.2 hentry)
      exact ⟨h, hh, (iequals_iff _ _).mpr (hsame.symm.trans hown)⟩
    | inr hkey =>
      have hsame : lower f.1 = lower (bytes "Content-Type") := by simpa [Assoc.keys] using hkey
      rw [(iequals_iff _ _).mpr hsame] at hct
      cases hct
  refine ⟨r.headers.filter fun f => !iequals f.1 (bytes "Content-Type"), ?_, ?_, ?_⟩
  · -- distinct names, each that of a string
    set extra := r.headers.filter fun f => !iequals f.1 (bytes "Content-Type")
    have hnodup : (extra.map fun f => lower f.1).Nodup :=
      hlegible.sound.distinct.sublist (List.filter_sublist.map _)
    have hsub : extra.map (fun f => lower f.1) ⊆
        (headerStrings calls).map fun h => lower (ownName h) := by
      intro k hk
      obtain ⟨f, hf, rfl⟩ := List.mem_map.mp hk
      obtain ⟨hf, hct⟩ := List.mem_filter.mp hf
      obtain ⟨h, hh, hname⟩ := hnamed f hf (by simpa using hct)
      exact List.mem_map.mpr ⟨h, hh, ((iequals_iff _ _).mp hname).symm⟩
    simpa using (List.subperm_of_subset hnodup hsub).length_le
  · intro f hf
    obtain ⟨hf, hct⟩ := List.mem_filter.mp hf
    exact hnamed f hf (by simpa using hct)
  · intro f hf
    rw [hasHeader_answer] at hf
    rcases (Assoc.mem_fill_iff lower).mp hf with hf | ⟨hf, -⟩
    · by_cases hct : iequals f.1 (bytes "Content-Type") = true
      · exact Or.inl hct
      · exact Or.inr (Or.inr (List.mem_filter.mpr ⟨hf, by simpa using hct⟩))
    · exact Or.inr (Or.inl hf)

/-- The strings of a handler stay apart exactly when each sets no header but its own. -/
theorem headers_apart_iff (calls : List Query.Call) :
    (OneLineEach calls ∧ ∀ h ∈ headerStrings calls, Isolated h) ↔
      ∀ h ∈ headerStrings calls, OneHeader h :=
  ⟨fun h s hs => (h.2 s hs).oneHeader, fun h => ⟨oneLineEach h, fun s hs => (h s hs).isolated⟩⟩

/-- A value with an LF in it sets a cookie. -/
theorem value_sets_cookie :
    ¬(OneLineEach [.setHeaders (bytes "X: a\nSet-Cookie: b")] ∧
      ∀ h ∈ headerStrings [.setHeaders (bytes "X: a\nSet-Cookie: b")], Isolated h) := by
  rintro ⟨-, hiso⟩
  have hone := (hiso (bytes "X: a\nSet-Cookie: b") (by decide)).oneHeader
  have hname := hone (bytes "Set-Cookie: b") (by decide) (bytes "Set-Cookie") (bytes "b")
    (by decide)
  exact absurd hname (by decide)

end Vermell.Router
