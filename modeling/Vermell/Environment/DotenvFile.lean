import Vermell.Environment.Dotenv

/-! A `.env` file as it is documented, written out and read back by `parse_env`. -/
namespace Vermell.Environment
open Http Text

/-- The quotes that a value stands in. -/
inductive Quote
  | double
  | single

def Quote.byte : Quote → UInt8
  | .double => QUOTE
  | .single => APOSTROPHE

/-- A key with its value, and with what else stands on the line. -/
structure Entry where
  exported : Bool := false
  key : Bytes
  quote : Quote := .double
  value : Bytes
  blanks : Bytes := []
  comment : Option Bytes := none
  crlf : Bool := false
  key_nonempty : key ≠ []
  key_plain : EQUALS ∉ key ∧ LF ∉ key
  key_ends : (∀ c, key.head? = some c → isBlank c = false) ∧
    ∀ c, key.getLast? = some c → isBlank c = false
  key_start : key.head? ≠ some HASH ∧ ¬EXPORT <+: key
  value_plain : LF ∉ value ∧ quote.byte ∉ value
  blanks_blank : ∀ c ∈ blanks, isBlank c = true
  comment_plain : ∀ text ∈ comment, blanks ≠ [] ∧ LF ∉ text

def carriageReturn (crlf : Bool) : Bytes := if crlf then [CR] else []

namespace Entry

/-- The text behind the value's closing quote. -/
def behind (e : Entry) : Bytes :=
  e.blanks ++ (match e.comment with | none => [] | some text => HASH :: text) ++
    carriageReturn e.crlf

/-- The line from its key on, with some text behind the closing quote. -/
def body (e : Entry) (behind : Bytes) : Bytes :=
  e.key ++ EQUALS :: e.quote.byte :: (e.value ++ e.quote.byte :: behind)

def line (e : Entry) (behind : Bytes) : Bytes :=
  (if e.exported then EXPORT else []) ++ e.body behind

def text (e : Entry) : Bytes := e.line e.behind

end Entry

inductive Line
  | entry (e : Entry)
  | blank (blanks : Bytes) (blank : ∀ c ∈ blanks, isBlank c = true) (crlf : Bool)
  | comment (blanks text : Bytes) (blank : ∀ c ∈ blanks, isBlank c = true) (plain : LF ∉ text)
    (crlf : Bool)

def Line.text : Line → Bytes
  | .entry e => e.text
  | .blank blanks _ crlf => blanks ++ carriageReturn crlf
  | .comment blanks text _ _ crlf => blanks ++ HASH :: (text ++ carriageReturn crlf)

def Line.entry? : Line → Option Entry
  | .entry e => some e
  | .blank .. => none
  | .comment .. => none

def render (lines : List Line) : Bytes := lines.flatMap fun line => line.text ++ [LF]

/-- The last entry of a key. -/
def lastEntry (key : Bytes) (lines : List Line) : Option Entry :=
  (lines.filterMap Line.entry?).reverse.find? (·.key = key)

/-! What the reader does at the ends of a line. -/

theorem isBlank_ne_cr {c : UInt8} (h : isBlank c = true) : c ≠ CR := by
  rintro rfl
  cases h

theorem stripCr_blanks {blanks : Bytes} (h : ∀ c ∈ blanks, isBlank c = true) (crlf : Bool) :
    stripCr (blanks ++ carriageReturn crlf) = blanks := by
  cases crlf with
  | true => simp [stripCr, carriageReturn]
  | false =>
    rw [carriageReturn, if_neg Bool.false_ne_true, List.append_nil, stripCr, if_neg]
    intro hlast
    exact isBlank_ne_cr (h CR (List.mem_of_getLast? hlast)) rfl

theorem Quote.byte_plain (quote : Quote) :
    isBlank quote.byte = false ∧ quote.byte ≠ CR ∧ quote.byte ≠ LF := by
  cases quote <;> decide

/-- With a text behind it, the closing quote stays. -/
theorem quote_mem_unquote (quote : Quote) (value : Bytes) {rest : Bytes} (hrest : rest ≠ []) :
    quote.byte ∈ unquote (quote.byte :: (value ++ quote.byte :: rest)) := by
  unfold unquote
  split_ifs with hquoted
  · cases rest using List.reverseRecOn with
    | nil => exact absurd rfl hrest
    | append_singleton rest last =>
      have hkept : ((quote.byte :: (value ++ quote.byte :: (rest ++ [last]))).drop 1).take
          ((quote.byte :: (value ++ quote.byte :: (rest ++ [last]))).length - 2) =
          value ++ quote.byte :: rest := by
        have hsplit : value ++ quote.byte :: (rest ++ [last]) =
            (value ++ quote.byte :: rest) ++ [last] := by simp
        rw [List.drop_one, List.tail_cons, hsplit]
        apply List.take_left'
        simp
      rw [hkept]
      exact List.mem_append_right value List.mem_cons_self
  · cases hfind : find [SP, HASH] (quote.byte :: (value ++ quote.byte :: rest)) with
    | none => exact List.mem_cons_self
    | some hash =>
      -- the opening quote stands in front of the comment
      cases hash with
      | zero =>
        have hstart := ((find_eq_some_iff _ _ _).mp hfind).2.1
        cases quote <;> simp [Quote.byte, SP, QUOTE, APOSTROPHE] at hstart
      | succ hash =>
        have hstop := trim_append_stop quote.byte_plain.1 []
          ((value ++ quote.byte :: rest).take hash)
        rw [List.nil_append, List.dropWhile_nil, List.nil_append] at hstop
        simp only [List.take_succ_cons, trim, hstop]
        exact List.mem_cons_self

/-- A value in quotes is read as it is, and only where nothing else stands behind the quotes. -/
theorem unquote_quoted {quote : Quote} {value : Bytes} (hvalue : quote.byte ∉ value)
    (rest : Bytes) :
    unquote (quote.byte :: (value ++ quote.byte :: rest)) = value ↔ rest = [] := by
  constructor
  · intro h
    by_contra hrest
    exact hvalue (h ▸ quote_mem_unquote quote value hrest)
  · rintro rfl
    have hquoted : isQuoted quote.byte (quote.byte :: (value ++ [quote.byte])) :=
      ⟨rfl, by rw [← List.cons_append, List.getLast?_concat]⟩
    unfold unquote
    rw [if_pos]
    · simp
    · refine ⟨by simp, ?_⟩
      cases quote with
      | double => exact .inl hquoted
      | single => exact .inr hquoted

namespace Entry
variable (e : Entry)

/-- What the reader leaves of the text behind the closing quote. -/
def rest : Bytes := (stripCr e.behind).rdropWhile isBlank

/-- The value that the reader takes from the line. -/
def read : Bytes := unquote (e.quote.byte :: (e.value ++ e.quote.byte :: e.rest))

theorem rest_eq_nil_iff : e.rest = [] ↔ e.comment = none := by
  unfold rest behind
  cases hcomment : e.comment with
  | none =>
    rw [List.append_nil, stripCr_blanks e.blanks_blank, List.rdropWhile_eq_nil_iff]
    exact iff_of_true e.blanks_blank rfl
  | some text =>
    dsimp only
    rw [List.append_assoc, List.cons_append, stripCr_stop (by decide),
      rdropWhile_append_stop (by decide)]
    simp

theorem trim_rest {c : UInt8} (hc : isBlank c = false) (s : Bytes) :
    trim (c :: (s ++ e.quote.byte :: e.rest)) = c :: (s ++ e.quote.byte :: e.rest) := by
  have hstop := trim_append_stop e.quote.byte_plain.1 (c :: s) e.rest
  rw [List.dropWhile_cons_of_neg (by simp [hc]), rest, List.rdropWhile_idempotent] at hstop
  exact hstop

theorem trim_behind {c : UInt8} (hc : isBlank c = false) (s : Bytes) :
    trim (stripCr (c :: (s ++ e.quote.byte :: e.behind))) =
      c :: (s ++ e.quote.byte :: e.rest) := by
  have hstop := trim_append_stop e.quote.byte_plain.1 (c :: s) (stripCr e.behind)
  rw [List.dropWhile_cons_of_neg (by simp [hc]), ← stripCr_stop e.quote.byte_plain.2.1] at hstop
  exact hstop

theorem body_start : ∃ c s, isBlank c = false ∧ c ≠ HASH ∧
    ∀ behind, e.body behind = c :: (s ++ e.quote.byte :: behind) := by
  obtain ⟨c, key, hkey⟩ := List.exists_cons_of_ne_nil e.key_nonempty
  have hhead : e.key.head? = some c := by rw [hkey]; rfl
  refine ⟨c, key ++ EQUALS :: e.quote.byte :: e.value, e.key_ends.1 c hhead, ?_, ?_⟩
  · intro hhash
    exact e.key_start.1 (hhash ▸ hhead)
  · intro behind
    simp [body, hkey]

theorem line_start : ∃ c s, isBlank c = false ∧ c ≠ HASH ∧
    ∀ behind, e.line behind = c :: (s ++ e.quote.byte :: behind) := by
  obtain ⟨c, s, hblank, hhash, hbody⟩ := e.body_start
  cases hexported : e.exported with
  | false => exact ⟨c, s, hblank, hhash, by simpa [line, hexported] using hbody⟩
  | true =>
    have hexport : EXPORT = 101 :: bytes "xport " := by decide
    refine ⟨101, bytes "xport " ++ c :: s, by decide, by decide, fun behind => ?_⟩
    simp [line, hexported, hbody, hexport]

/-- The line loses its `export `, and nothing else where there is none. -/
theorem strip_export :
    (if EXPORT.isPrefixOf (e.line e.rest) then trim ((e.line e.rest).drop 7) else e.line e.rest) =
      e.body e.rest := by
  obtain ⟨c, s, hblank, -, hbody⟩ := e.body_start
  cases hexported : e.exported with
  | false =>
    have hline : e.line e.rest = e.body e.rest := by simp [line, hexported]
    have hplain : ¬EXPORT <+: e.body e.rest := by
      rw [body, prefix_append_cons_iff (by decide)]
      exact e.key_start.2
    rw [hline, if_neg (by simpa using hplain)]
  | true =>
    have hline : e.line e.rest = EXPORT ++ e.body e.rest := by simp [line, hexported]
    have hdrop : (EXPORT ++ e.body e.rest).drop 7 = e.body e.rest := List.drop_left' (by decide)
    rw [hline, if_pos (by simp), hdrop, hbody, e.trim_rest hblank]

theorem read_eq_value_iff : e.read = e.value ↔ e.comment = none := by
  rw [read, unquote_quoted e.value_plain.2, rest_eq_nil_iff]

theorem parseLine_text : parseLine e.text = some (e.key, e.read) := by
  obtain ⟨c, s, hblank, hhash, hline⟩ := e.line_start
  have htrim : trim (stripCr e.text) = e.line e.rest := by
    rw [text, hline, e.trim_behind hblank, hline]
  have hstart : ¬(e.line e.rest = [] ∨ (e.line e.rest).head? = some HASH) := by
    rw [hline]
    simp [hhash]
  have hkey : (e.body e.rest).take e.key.length = e.key := List.take_left
  have hvalue : (e.body e.rest).drop (e.key.length + 1) =
      e.quote.byte :: (e.value ++ e.quote.byte :: e.rest) := by simp [body]
  have hkeep : trim e.key = e.key := trim_self e.key_ends.1 e.key_ends.2
  have hequals : (e.body e.rest).idxOf? EQUALS = some e.key.length :=
    idxOf?_append_cons e.key_plain.1 _
  unfold parseLine
  simp only [htrim, if_neg hstart, e.strip_export]
  simp only [hequals, hkey, hvalue, hkeep, if_neg e.key_nonempty,
    e.trim_rest e.quote.byte_plain.1]
  rfl

end Entry

/-- An entry's line gives its key and some value, and no other line gives anything. -/
theorem parseLine_line (line : Line) :
    parseLine line.text = line.entry?.map fun e => (e.key, e.read) := by
  cases line with
  | entry e => exact e.parseLine_text
  | blank blanks hblank crlf =>
    have htrim : trim blanks = [] := by
      rw [trim, List.dropWhile_eq_nil_iff.mpr hblank]
      rfl
    rw [parseLine, Line.text, stripCr_blanks hblank, htrim]
    rfl
  | comment blanks text hblank hplain crlf =>
    have htrim : trim (stripCr (Line.text (.comment blanks text hblank hplain crlf))) =
        HASH :: (stripCr (text ++ carriageReturn crlf)).rdropWhile isBlank := by
      rw [Line.text, stripCr_stop (by decide), trim, trim_append_stop (by decide),
        List.dropWhile_eq_nil_iff.mpr hblank, List.nil_append]
    rw [parseLine, htrim]
    rfl

/-! The lines of a file, and its table. -/

theorem lf_not_mem_line (line : Line) : LF ∉ line.text := by
  have hblanks {blanks : Bytes} (h : ∀ c ∈ blanks, isBlank c = true) : LF ∉ blanks :=
    fun hmem => absurd (h LF hmem) (by decide)
  have hreturn (crlf : Bool) : LF ∉ carriageReturn crlf := by cases crlf <;> decide
  cases line with
  | entry e =>
    have hexport : LF ∉ if e.exported then EXPORT else [] := by cases e.exported <;> decide
    have hcomment : LF ∉ match e.comment with | none => [] | some text => HASH :: text := by
      cases hcomment : e.comment with
      | none => exact List.not_mem_nil
      | some text =>
        have hplain := (e.comment_plain text (by rw [hcomment]; rfl)).2
        exact List.not_mem_cons_of_ne_of_not_mem (by decide) hplain
    have hequals : LF ≠ EQUALS := by decide
    simp only [Line.text, Entry.text, Entry.line, Entry.body, Entry.behind, List.mem_append,
      List.mem_cons, not_or]
    exact ⟨hexport, e.key_plain.2, hequals, e.quote.byte_plain.2.2.symm, e.value_plain.1,
      e.quote.byte_plain.2.2.symm, ⟨hblanks e.blanks_blank, hcomment⟩, hreturn e.crlf⟩
  | blank blanks hblank crlf =>
    exact fun h => (List.mem_append.mp h).elim (hblanks hblank) (hreturn crlf)
  | comment blanks text hblank hplain crlf =>
    have hhash : LF ≠ HASH := by decide
    simp only [Line.text, List.mem_append, List.mem_cons, not_or]
    exact ⟨hblanks hblank, hhash, hplain, hreturn crlf⟩

theorem filterMap_render (lines : List Line) :
    ((render lines).splitOn LF).filterMap parseLine =
      (lines.filterMap Line.entry?).map fun e => (e.key, e.read) := by
  induction lines with
  | nil => rfl
  | cons line rest ih =>
    have hrender : render (line :: rest) = line.text ++ LF :: render rest := by simp [render]
    rw [hrender, splitOn_cons_line (lf_not_mem_line line), List.filterMap_cons, parseLine_line, ih,
      List.filterMap_cons]
    cases line.entry? with
    | none => rfl
    | some e => rfl

/-- The table has for each key what the line of its last entry gives. -/
theorem get_parseEnv_render (lines : List Line) (key : Bytes) :
    Assoc.get id key (parseEnv (render lines)) = (lastEntry key lines).map Entry.read := by
  rw [parseEnv, Assoc.get_putAll, filterMap_render, ← List.map_reverse, Assoc.get_map]
  simp [lastEntry, Assoc.get]

/-- Reading inverts writing exactly where no entry that counts has a comment behind its quotes. -/
theorem parseEnv_render_iff (lines : List Line) :
    (∀ key, Assoc.get id key (parseEnv (render lines)) =
        (lastEntry key lines).map Entry.value) ↔
      ∀ key, ∀ e ∈ lastEntry key lines, e.comment = none := by
  refine forall_congr' fun key => ?_
  rw [get_parseEnv_render]
  cases lastEntry key lines with
  | none => simp
  | some e => simpa using e.read_eq_value_iff

/-- The line of the example that has a comment. -/
def extraKey : Entry where
  exported := true
  key := bytes "EXTRA_KEY"
  quote := .single
  value := bytes "quoted value"
  blanks := bytes "   "
  comment := some (bytes " trailing comments are stripped")
  key_nonempty := by decide
  key_plain := by decide
  key_ends := ⟨by rintro c ⟨⟩; rfl, by rintro c ⟨⟩; rfl⟩
  key_start := by decide
  value_plain := by decide
  blanks_blank := List.all_eq_true.mp (by decide)
  comment_plain := by decide

/-- Its value keeps the quotes. -/
theorem extraKey_keeps_quotes :
    Assoc.get id (bytes "EXTRA_KEY") (parseEnv (render [.entry extraKey])) =
        some (bytes "'quoted value'") ∧
      (lastEntry (bytes "EXTRA_KEY") [.entry extraKey]).map Entry.value =
        some (bytes "quoted value") := by
  decide

end Vermell.Environment
