import Vermell.Http.ChunkScan
import Vermell.Http.Numerals

/-! The chunked transfer coding from the sender's side. An encoding carries its own
well-formedness, and the scan is its inverse. -/
namespace Vermell.Http
open Text

/-- A text without CRLF in it. -/
def OneLine (w : Bytes) : Prop := ¬CRLF <:+: w

instance (w : Bytes) : Decidable (OneLine w) := inferInstanceAs (Decidable ¬CRLF <:+: w)

/-- A chunk-size line without its CRLF: any hexadecimal numeral of the size, and extensions. -/
structure SizeLine (size : ℕ) where
  numeral : Bytes
  extensions : Bytes
  some_digit : numeral ≠ []
  denotes : hexNumeral numeral = some size
  semicolon : ∀ c ∈ extensions.head?, c = SEMICOLON
  one_line : OneLine extensions

/-- A chunk. Its data are bytes that a `std::string` holds. -/
structure Chunk where
  data : Bytes
  nonempty : data ≠ []
  held : data.length ≤ npos
  size : SizeLine data.length

/-- A chunked body: the chunks, the zero chunk and the trailer lines. -/
structure ChunkedBody where
  chunks : List Chunk
  zero : SizeLine 0
  trailers : List Bytes
  trailers_nonempty : ∀ line ∈ trailers, line ≠ []
  trailers_one_line : ∀ line ∈ trailers, OneLine line

def SizeLine.encode {size : ℕ} (l : SizeLine size) : Bytes := l.numeral ++ l.extensions

def Chunk.encode (c : Chunk) : Bytes := c.size.encode ++ CRLF ++ c.data ++ CRLF

def encodeTrailers (trailers : List Bytes) : Bytes := trailers.flatMap (· ++ CRLF) ++ CRLF

def ChunkedBody.encode (b : ChunkedBody) : Bytes :=
  b.chunks.flatMap Chunk.encode ++ (b.zero.encode ++ CRLF ++ encodeTrailers b.trailers)

def ChunkedBody.data (b : ChunkedBody) : Bytes := b.chunks.flatMap Chunk.data

theorem findCrlf_line (pre : Bytes) {line : Bytes} (h : OneLine line) (s : Bytes) :
    findFrom CRLF (pre ++ (line ++ CRLF ++ s)) pre.length = some (pre.length + line.length) := by
  have hline := find_line (show CR ≠ LF by decide) h s
  rw [findFrom_length, List.append_assoc]
  exact (congrArg (Option.map (· + pre.length)) hline).trans (by simp [Nat.add_comm])

theorem hexNumeralFrom_nil_iff {n v : ℕ} : hexNumeralFrom n [] = some v ↔ n = v := by
  simp [hexNumeralFrom]

theorem hexNumeralFrom_cons_iff {n v : ℕ} {c : UInt8} {w : Bytes} :
    hexNumeralFrom n (c :: w) = some v ↔
      ∃ d, hexValue c = some d ∧ hexNumeralFrom (n*16 + d) w = some v := by
  cases hd : hexValue c <;> simp [hexNumeralFrom, hd]

theorem hexNumeralFrom_le {n v : ℕ} {w : Bytes} (h : hexNumeralFrom n w = some v) : n ≤ v := by
  induction w generalizing n with
  | nil => exact (hexNumeralFrom_nil_iff.mp h).le
  | cons c w ih =>
    obtain ⟨d, -, hrest⟩ := hexNumeralFrom_cons_iff.mp h
    have := ih hrest
    omega

/-- The overflow guard lets every numeral through whose value a `size_t` holds. -/
theorem chunkSize_numeral {n v : ℕ} {any : Bool} {w : Bytes} (h : hexNumeralFrom n w = some v)
    (hv : v ≤ npos) (ext : Bytes) :
    chunkSize n any (w ++ ext) = chunkSize v (any || !w.isEmpty) ext := by
  induction w generalizing n any with
  | nil => simp [hexNumeralFrom_nil_iff.mp h]
  | cons c w ih =>
    obtain ⟨d, hd, hrest⟩ := hexNumeralFrom_cons_iff.mp h
    have hle := hexNumeralFrom_le hrest
    have hguard : ¬n > (npos - d)/16 := by omega
    rw [List.cons_append, chunkSize]
    simp only [hd, hguard, if_false]
    rw [ih hrest]
    simp

theorem chunkSize_sizeLine {size : ℕ} (l : SizeLine size) (h : size ≤ npos) :
    chunkSize 0 false l.encode = some size := by
  have hany : (false || !l.numeral.isEmpty) = true := by simpa using l.some_digit
  have hsemi := l.semicolon
  unfold SizeLine.encode
  rw [chunkSize_numeral l.denotes h, hany]
  cases hext : l.extensions with
  | nil => rfl
  | cons c ext =>
    obtain rfl : c = SEMICOLON := hsemi c (by simp [hext])
    rfl

theorem hexNumeralFrom_digit {n v : ℕ} {w : Bytes} (h : hexNumeralFrom n w = some v) :
    ∀ c ∈ w, ∃ d, hexValue c = some d := by
  induction w generalizing n with
  | nil => simp
  | cons c w ih =>
    obtain ⟨d, hd, hrest⟩ := hexNumeralFrom_cons_iff.mp h
    exact List.forall_mem_cons.mpr ⟨⟨d, hd⟩, ih hrest⟩

theorem oneLine_append {w ext : Bytes} (hw : CR ∉ w) (h : OneLine ext) : OneLine (w ++ ext) := by
  induction w with
  | nil => exact h
  | cons c w ih =>
    intro hin
    cases List.infix_cons_iff.mp hin with
    | inl hpre =>
      obtain ⟨rfl, -⟩ := List.cons_prefix_cons.mp hpre
      exact hw List.mem_cons_self
    | inr hin =>
      exact ih (fun hmem => hw (List.mem_cons_of_mem c hmem)) hin

theorem oneLine_sizeLine {size : ℕ} (l : SizeLine size) : OneLine l.encode := by
  refine oneLine_append ?_ l.one_line
  intro hcr
  obtain ⟨d, hd⟩ := hexNumeralFrom_digit l.denotes CR hcr
  cases hd

theorem scanTrailers_encode (pre s : Bytes) {trailers : List Bytes}
    (hne : ∀ line ∈ trailers, line ≠ []) (hline : ∀ line ∈ trailers, OneLine line) :
    scanTrailers (pre ++ (encodeTrailers trailers ++ s)) pre.length =
      some (pre ++ encodeTrailers trailers).length := by
  induction trailers generalizing pre with
  | nil =>
    have hempty := findCrlf_line pre (show OneLine [] by decide) s
    rw [List.nil_append, List.length_nil, Nat.add_zero] at hempty
    have hnil : encodeTrailers [] = CRLF := rfl
    rw [hnil, scanTrailers_eq, hempty]
    simp [CRLF]
  | cons line rest ih =>
    rw [List.forall_mem_cons] at hne hline
    have hfind := findCrlf_line pre hline.1 (encodeTrailers rest ++ s)
    have hlen := List.length_pos_iff.mpr hne.1
    have hrest := ih (pre ++ (line ++ CRLF)) hne.2 hline.2
    have hsplit : encodeTrailers (line :: rest) = line ++ CRLF ++ encodeTrailers rest := by
      simp [encodeTrailers]
    have hpos : pre.length + line.length + 2 = (pre ++ (line ++ CRLF)).length := by
      simp [CRLF, Nat.add_assoc]
    rw [List.append_assoc pre, ← hpos] at hrest
    rw [hsplit, scanTrailers_eq, List.append_assoc (line ++ CRLF), hfind]
    simp only [if_neg (show ¬pre.length + line.length = pre.length by omega)]
    rw [hrest, List.append_assoc pre]

/-- The scan passes over an encoded chunk and takes its data, whatever stands behind it. -/
theorem chunkStep_encode (c : Chunk) (pre s : Bytes) :
    chunkStep (pre ++ (c.encode ++ s)) pre.length = .next c.data (pre ++ c.encode).length := by
  have hfind := findCrlf_line pre (oneLine_sizeLine c.size) (c.data ++ CRLF ++ s)
  have hsplit : c.encode ++ s = c.size.encode ++ CRLF ++ (c.data ++ CRLF ++ s) := by
    simp [Chunk.encode]
  have hlen := List.length_pos_iff.mpr c.nonempty
  have hdrop : (pre ++ (c.encode ++ s)).drop (pre.length + c.size.encode.length + 2) =
      c.data ++ (CRLF ++ s) := by
    rw [hsplit, Nat.add_assoc, ← List.drop_drop, List.drop_left, List.append_assoc c.data]
    exact List.drop_left' (by simp [CRLF])
  have hend := (occurs_iff_getElem? CRLF (pre ++ (c.encode ++ s))
    (pre.length + c.size.encode.length + 2 + c.data.length)).mp (by
      rw [← List.drop_drop, hdrop, List.drop_left]
      exact List.prefix_append CRLF s)
  rw [← hsplit] at hfind
  refine chunkStep_next_iff.mpr ⟨_, c.data.length, hfind, ?_, by omega, ?_, ?_, ?_, ?_, ?_⟩
  · rw [List.drop_left, Nat.add_sub_cancel_left, hsplit, List.append_assoc c.size.encode,
      List.take_left]
    exact chunkSize_sizeLine c.size c.held
  · rw [hdrop]
    exact List.take_left.symm
  · simp [Chunk.encode, CRLF]
    omega
  · simp
  · have hcr := hend 0 (by decide)
    rw [List.getD_eq_getElem?_getD]
    exact congrArg (Option.getD · 0) hcr
  · have hlf := hend 1 (by decide)
    rw [List.getD_eq_getElem?_getD]
    exact congrArg (Option.getD · 0) hlf

theorem chunkStep_zero (b : ChunkedBody) (pre s : Bytes) :
    chunkStep (pre ++ (b.zero.encode ++ CRLF ++ encodeTrailers b.trailers ++ s)) pre.length =
      .done (pre ++ (b.zero.encode ++ CRLF ++ encodeTrailers b.trailers)).length := by
  have hfind := findCrlf_line pre (oneLine_sizeLine b.zero) (encodeTrailers b.trailers ++ s)
  have htrailers := scanTrailers_encode (pre ++ (b.zero.encode ++ CRLF)) s b.trailers_nonempty
    b.trailers_one_line
  rw [List.append_assoc (b.zero.encode ++ CRLF)]
  refine chunkStep_done_iff.mpr ⟨_, hfind, ?_, ?_⟩
  · rw [List.drop_left, Nat.add_sub_cancel_left, List.append_assoc b.zero.encode, List.take_left]
    exact chunkSize_sizeLine b.zero (Nat.zero_le _)
  · have hpos :
        pre.length + b.zero.encode.length + 2 = (pre ++ (b.zero.encode ++ CRLF)).length := by
      simp [CRLF, Nat.add_assoc]
    rw [hpos, ← List.append_assoc pre, htrailers, List.append_assoc pre]

theorem scanChunksFrom_encode (b : ChunkedBody) (pre s data : Bytes) (chunks : List Chunk) :
    scanChunksFrom (pre ++ (chunks.flatMap Chunk.encode ++
        (b.zero.encode ++ CRLF ++ encodeTrailers b.trailers ++ s))) pre.length data =
      ⟨.complete, data ++ chunks.flatMap Chunk.data, (pre ++ (chunks.flatMap Chunk.encode ++
        (b.zero.encode ++ CRLF ++ encodeTrailers b.trailers))).length⟩ := by
  induction chunks generalizing pre data with
  | nil =>
    have hzero := chunkStep_zero b pre s
    rw [scanChunksFrom_eq, List.flatMap_nil, List.nil_append, hzero]
    simp
  | cons c rest ih =>
    have hchunk := chunkStep_encode c pre (rest.flatMap Chunk.encode ++
      (b.zero.encode ++ CRLF ++ encodeTrailers b.trailers ++ s))
    have hrest := ih (pre ++ c.encode) (data ++ c.data)
    rw [List.append_assoc pre, List.append_assoc pre] at hrest
    rw [scanChunksFrom_eq, List.flatMap_cons, List.append_assoc c.encode, hchunk]
    simp only [hrest]
    simp

/-- Chunked decoding inverts every chunked encoding, and finds every strict prefix of one
incomplete. -/
theorem scanChunked_encode (b : ChunkedBody) :
    (∀ s, scanChunked (b.encode ++ s) = ⟨.complete, b.data, b.encode.length⟩) ∧
      ∀ t, t <+: b.encode → t ≠ b.encode → (scanChunked t).state = .incomplete := by
  have hcomplete : ∀ s, scanChunked (b.encode ++ s) = ⟨.complete, b.data, b.encode.length⟩ := by
    intro s
    have hscan := scanChunksFrom_encode b [] s [] b.chunks
    simpa [scanChunked, ChunkedBody.encode, ChunkedBody.data] using hscan
  refine ⟨hcomplete, ?_⟩
  rintro t ⟨u, hu⟩ hne
  have hfull := hcomplete []
  rw [List.append_nil] at hfull
  cases hstate : (scanChunked t).state with
  | incomplete => rfl
  | complete =>
    -- the scan of the whole encoding would end inside `t`
    have hle := scanChunked_consumed hstate
    have hsame := scanChunked_congr (t := b.encode) (by rw [← hu]; simp) hstate hle
    rw [← hsame, hfull, ← hu] at hle
    simp only [List.length_append] at hle
    obtain rfl : u = [] := List.length_eq_zero_iff.mp (by omega)
    exact absurd (by rw [← hu, List.append_nil]) hne
  | malformed =>
    -- malformed bytes stay malformed, whatever follows
    have hbad := scanChunked_malformed_append u hstate
    rw [hu, hfull] at hbad
    cases hbad

theorem scanChunked_encode_crlf_data :
    let b : ChunkedBody :=
      { chunks := [⟨bytes "a\r\n", by decide, by decide,
          ⟨bytes "003", bytes ";x=1", by decide, by decide, by rintro c ⟨⟩; rfl, by decide⟩⟩]
        zero := ⟨bytes "00", [], by decide, by decide, by simp, by decide⟩
        trailers := [bytes "T: v"]
        trailers_nonempty := by decide
        trailers_one_line := by decide }
    (scanChunked (b.encode.take 14)).state = .incomplete := by
  intro b
  exact (scanChunked_encode b).2 _ (List.take_prefix 14 b.encode) (by decide)

end Vermell.Http
