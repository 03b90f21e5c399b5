import Vermell.Http.HeadBounds

/-! The chunk scan reads nothing behind the bytes it consumes: a finished scan gives the same
result on every body with the same consumed bytes, and a malformed one stays malformed. -/
namespace Vermell.Http
open Text

theorem findCrlf_congr {body t : Bytes} {pos i n : ℕ} (hst : body.take n = t.take n)
    (hn : i + 2 ≤ n) (h : findFrom CRLF body pos = some i) : findFrom CRLF t pos = some i :=
  findFrom_congr (by simp [CRLF]) hst hn h

theorem scanTrailers_eq (body : Bytes) (pos : ℕ) : scanTrailers body pos =
    match findFrom CRLF body pos with
    | none => none
    | some tEnd => if tEnd = pos then some (tEnd + 2) else scanTrailers body (tEnd + 2) := by
  rw [scanTrailers]
  split <;> simp_all

theorem scanTrailers_le {body : Bytes} {pos c : ℕ} (h : scanTrailers body pos = some c) :
    pos + 2 ≤ c ∧ c ≤ body.length := by
  induction pos using scanTrailers.induct body with
  | case1 pos hf =>
    rw [scanTrailers_eq] at h
    simp [hf] at h
  | case2 pos hf =>
    have hle := findCrlf_le hf
    rw [scanTrailers_eq] at h
    simp only [hf, if_true, Option.some.injEq] at h
    omega
  | case3 pos tEnd hf hne ih =>
    have hle := findCrlf_le hf
    rw [scanTrailers_eq] at h
    simp only [hf, hne, if_false] at h
    have := ih h
    omega

theorem scanTrailers_congr {body t : Bytes} {pos c n : ℕ} (hst : body.take n = t.take n)
    (hn : c ≤ n) (h : scanTrailers body pos = some c) : scanTrailers t pos = some c := by
  induction pos using scanTrailers.induct body with
  | case1 pos hf =>
    rw [scanTrailers_eq] at h
    simp [hf] at h
  | case2 pos hf =>
    have hc := scanTrailers_le h
    rw [scanTrailers_eq] at h ⊢
    simpa only [hf, findCrlf_congr hst (by omega) hf, if_true] using h
  | case3 pos tEnd hf hne ih =>
    rw [scanTrailers_eq] at h ⊢
    simp only [hf, hne, if_false] at h
    have hc := scanTrailers_le h
    simpa only [findCrlf_congr hst (by omega) hf, hne, if_false] using ih h

/-- The ways through one round of the chunk loop, with what each has found. -/
inductive ChunkStepped (body : Bytes) (pos : ℕ) : ChunkStep → Prop
  | noLine (line : findFrom CRLF body pos = none) : ChunkStepped body pos (.stop .incomplete [])
  | badSize {lineEnd : ℕ} (line : findFrom CRLF body pos = some lineEnd)
    (size : chunkSize 0 false ((body.drop pos).take (lineEnd - pos)) = none) :
    ChunkStepped body pos (.stop .malformed [])
  | openTrailers {lineEnd : ℕ} (line : findFrom CRLF body pos = some lineEnd)
    (zero : chunkSize 0 false ((body.drop pos).take (lineEnd - pos)) = some 0)
    (trailers : scanTrailers body (lineEnd + 2) = none) :
    ChunkStepped body pos (.stop .incomplete [])
  | done {lineEnd c : ℕ} (line : findFrom CRLF body pos = some lineEnd)
    (zero : chunkSize 0 false ((body.drop pos).take (lineEnd - pos)) = some 0)
    (trailers : scanTrailers body (lineEnd + 2) = some c) : ChunkStepped body pos (.done c)
  | short {lineEnd size : ℕ} (line : findFrom CRLF body pos = some lineEnd)
    (chunk : chunkSize 0 false ((body.drop pos).take (lineEnd - pos)) = some size)
    (nonzero : size ≠ 0) (length : body.length < lineEnd + 2 + size + 2) (payload : Bytes) :
    ChunkStepped body pos (.stop .incomplete payload)
  | badEnd {lineEnd size : ℕ} (line : findFrom CRLF body pos = some lineEnd)
    (chunk : chunkSize 0 false ((body.drop pos).take (lineEnd - pos)) = some size)
    (nonzero : size ≠ 0) (length : lineEnd + 2 + size + 2 ≤ body.length)
    (bad : body.getD (lineEnd + 2 + size) 0 ≠ CR ∨ body.getD (lineEnd + 2 + size + 1) 0 ≠ LF) :
    ChunkStepped body pos (.stop .malformed ((body.drop (lineEnd + 2)).take size))
  | next {lineEnd size : ℕ} (line : findFrom CRLF body pos = some lineEnd)
    (chunk : chunkSize 0 false ((body.drop pos).take (lineEnd - pos)) = some size)
    (nonzero : size ≠ 0) (length : lineEnd + 2 + size + 2 ≤ body.length)
    (cr : body.getD (lineEnd + 2 + size) 0 = CR)
    (lf : body.getD (lineEnd + 2 + size + 1) 0 = LF) :
    ChunkStepped body pos (.next ((body.drop (lineEnd + 2)).take size) (lineEnd + 2 + size + 2))

theorem chunkStepped (body : Bytes) (pos : ℕ) : ChunkStepped body pos (chunkStep body pos) := by
  unfold chunkStep
  cases hf : findFrom CRLF body pos with
  | none => exact .noLine hf
  | some lineEnd =>
    dsimp only
    cases hc : chunkSize 0 false ((body.drop pos).take (lineEnd - pos)) with
    | none => exact .badSize hf hc
    | some size =>
      dsimp only
      split_ifs with hz hlong hcut hend
      · subst hz
        cases ht : scanTrailers body (lineEnd + 2) with
        | none => exact .openTrailers hf hc ht
        | some c => exact .done hf hc ht
      · exact .short hf hc hz (by omega) _
      · exact .short hf hc hz (by omega) _
      · exact .badEnd hf hc hz (by omega) hend
      · simp only [not_or, not_not] at hend
        exact .next hf hc hz (by omega) hend.1 hend.2

theorem chunkStep_done_iff {body : Bytes} {pos c : ℕ} : chunkStep body pos = .done c ↔
    ∃ lineEnd, findFrom CRLF body pos = some lineEnd ∧
      chunkSize 0 false ((body.drop pos).take (lineEnd - pos)) = some 0 ∧
      scanTrailers body (lineEnd + 2) = some c := by
  constructor
  · intro h
    have hstep := chunkStepped body pos
    rw [h] at hstep
    cases hstep with
    | done hf hc ht => exact ⟨_, hf, hc, ht⟩
  · rintro ⟨lineEnd, hf, hc, ht⟩
    simp [chunkStep, hf, hc, ht]

theorem chunkStep_next_iff {body payload : Bytes} {pos p : ℕ} :
    chunkStep body pos = .next payload p ↔
    ∃ lineEnd size, findFrom CRLF body pos = some lineEnd ∧
      chunkSize 0 false ((body.drop pos).take (lineEnd - pos)) = some size ∧ size ≠ 0 ∧
      payload = (body.drop (lineEnd + 2)).take size ∧ p = lineEnd + 2 + size + 2 ∧
      p ≤ body.length ∧ body.getD (lineEnd + 2 + size) 0 = CR ∧
      body.getD (lineEnd + 2 + size + 1) 0 = LF := by
  constructor
  · intro h
    have hstep := chunkStepped body pos
    rw [h] at hstep
    cases hstep with
    | next hf hc hz hlen hcr hlf => exact ⟨_, _, hf, hc, hz, rfl, rfl, hlen, hcr, hlf⟩
  · rintro ⟨lineEnd, size, hf, hc, hz, rfl, rfl, hlen, hcr, hlf⟩
    simp only [chunkStep, hf, hc, hz, if_false]
    rw [if_neg (by omega), if_neg (by omega), if_neg (by simp only [hcr, hlf]; decide)]

theorem chunkStep_malformed_iff {body : Bytes} {pos : ℕ} :
    (∃ payload, chunkStep body pos = .stop .malformed payload) ↔
    ∃ lineEnd, findFrom CRLF body pos = some lineEnd ∧
      (chunkSize 0 false ((body.drop pos).take (lineEnd - pos)) = none ∨
        ∃ size, chunkSize 0 false ((body.drop pos).take (lineEnd - pos)) = some size ∧
          size ≠ 0 ∧ lineEnd + 2 + size + 2 ≤ body.length ∧
          (body.getD (lineEnd + 2 + size) 0 ≠ CR ∨
            body.getD (lineEnd + 2 + size + 1) 0 ≠ LF)) := by
  constructor
  · rintro ⟨payload, h⟩
    have hstep := chunkStepped body pos
    rw [h] at hstep
    cases hstep with
    | badSize hf hc => exact ⟨_, hf, .inl hc⟩
    | badEnd hf hc hz hlen hbad => exact ⟨_, hf, .inr ⟨_, hc, hz, hlen, hbad⟩⟩
  · rintro ⟨lineEnd, hf, hc | ⟨size, hc, hz, hlen, hbad⟩⟩
    · exact ⟨[], by simp only [chunkStep, hf, hc]⟩
    · refine ⟨(body.drop (lineEnd + 2)).take size, ?_⟩
      simp only [chunkStep, hf, hc, hz, if_false]
      rw [if_neg (by omega), if_neg (by omega), if_pos hbad]

theorem chunkStep_stop_ne_complete {body payload : Bytes} {pos : ℕ} :
    chunkStep body pos ≠ .stop .complete payload := by
  intro h
  have hstep := chunkStepped body pos
  rw [h] at hstep
  cases hstep

theorem chunkStep_done_le {body : Bytes} {pos c : ℕ} (h : chunkStep body pos = .done c) :
    pos < c ∧ c ≤ body.length := by
  obtain ⟨lineEnd, hf, -, ht⟩ := chunkStep_done_iff.mp h
  have hle := findCrlf_le hf
  have hc := scanTrailers_le ht
  omega

theorem chunkStep_done_congr {body t : Bytes} {pos c n : ℕ} (hst : body.take n = t.take n)
    (hn : c ≤ n) (h : chunkStep body pos = .done c) : chunkStep t pos = .done c := by
  obtain ⟨lineEnd, hf, hsize, ht⟩ := chunkStep_done_iff.mp h
  have hle := findCrlf_le hf
  have hc := scanTrailers_le ht
  refine chunkStep_done_iff.mpr ⟨lineEnd, findCrlf_congr hst (by omega) hf, ?_,
    scanTrailers_congr hst hn ht⟩
  rwa [← slice_congr hst (by omega)]

theorem chunkStep_next_congr {body t payload : Bytes} {pos p n : ℕ}
    (hst : body.take n = t.take n) (hn : p ≤ n) (h : chunkStep body pos = .next payload p) :
    chunkStep t pos = .next payload p := by
  obtain ⟨lineEnd, size, hf, hsize, hz, rfl, rfl, hlen, hcr, hlf⟩ := chunkStep_next_iff.mp h
  have hle := findCrlf_le hf
  refine chunkStep_next_iff.mpr ⟨lineEnd, size, findCrlf_congr hst (by omega) hf, ?_, hz,
    slice_congr hst (by omega), rfl, length_ge_of_take_eq hst hn hlen, ?_, ?_⟩
  · rwa [← slice_congr hst (by omega)]
  · rwa [← getD_congr hst (by omega)]
  · rwa [← getD_congr hst (by omega)]

theorem chunkStep_malformed_append {body payload : Bytes} {pos : ℕ} (s : Bytes)
    (h : chunkStep body pos = .stop .malformed payload) :
    ∃ payload, chunkStep (body ++ s) pos = .stop .malformed payload := by
  have hst : body.take body.length = (body ++ s).take body.length := by simp
  obtain ⟨lineEnd, hf, hbad⟩ := chunkStep_malformed_iff.mp ⟨payload, h⟩
  have hle := findCrlf_le hf
  refine chunkStep_malformed_iff.mpr ⟨lineEnd, findCrlf_congr hst (by omega) hf, ?_⟩
  rw [← slice_congr hst (by omega)]
  refine hbad.imp_right ?_
  rintro ⟨size, hsize, hz, hlen, hend⟩
  refine ⟨size, hsize, hz, by rw [List.length_append]; omega, ?_⟩
  rwa [← getD_congr hst (by omega), ← getD_congr hst (by omega)]

theorem scanChunksFrom_eq (body : Bytes) (pos : ℕ) (data : Bytes) :
    scanChunksFrom body pos data =
      match chunkStep body pos with
      | .stop state payload => ⟨state, data ++ payload, 0⟩
      | .done consumed => ⟨.complete, data, consumed⟩
      | .next payload pos' => scanChunksFrom body pos' (data ++ payload) := by
  rw [scanChunksFrom]
  split <;> simp_all

theorem scanChunksFrom_consumed {body : Bytes} {pos : ℕ} {data : Bytes}
    (h : (scanChunksFrom body pos data).state = .complete) :
    pos < (scanChunksFrom body pos data).consumed ∧
      (scanChunksFrom body pos data).consumed ≤ body.length := by
  induction pos, data using scanChunksFrom.induct body with
  | case1 pos data state payload hs =>
    rw [scanChunksFrom_eq] at h
    simp only [hs] at h
    exact absurd (h ▸ hs) chunkStep_stop_ne_complete
  | case2 pos data consumed hs =>
    rw [scanChunksFrom_eq]
    simp only [hs]
    exact chunkStep_done_le hs
  | case3 pos data payload pos' hs ih =>
    rw [scanChunksFrom_eq] at h ⊢
    simp only [hs] at h ⊢
    have hlt := chunkStep_next_lt hs
    have := ih h
    omega

/-- A complete scan is the same on every body that agrees on the consumed bytes. -/
theorem scanChunksFrom_congr {body t : Bytes} {pos n : ℕ} {data : Bytes}
    (hst : body.take n = t.take n) (h : (scanChunksFrom body pos data).state = .complete)
    (hn : (scanChunksFrom body pos data).consumed ≤ n) :
    scanChunksFrom t pos data = scanChunksFrom body pos data := by
  induction pos, data using scanChunksFrom.induct body with
  | case1 pos data state payload hs =>
    have := scanChunksFrom_consumed h
    rw [scanChunksFrom_eq] at this
    simp [hs] at this
  | case2 pos data consumed hs =>
    rw [scanChunksFrom_eq body] at hn
    simp only [hs] at hn
    rw [scanChunksFrom_eq t, scanChunksFrom_eq body, hs, chunkStep_done_congr hst hn hs]
  | case3 pos data payload pos' hs ih =>
    rw [scanChunksFrom_eq body] at h hn
    simp only [hs] at h hn
    have hc := scanChunksFrom_consumed h
    rw [scanChunksFrom_eq t, scanChunksFrom_eq body, hs,
      chunkStep_next_congr hst (by omega) hs]
    exact ih h hn

theorem scanChunksFrom_malformed_append {body : Bytes} {pos : ℕ} {data : Bytes} (s : Bytes)
    (h : (scanChunksFrom body pos data).state = .malformed) :
    (scanChunksFrom (body ++ s) pos data).state = .malformed := by
  induction pos, data using scanChunksFrom.induct body with
  | case1 pos data state payload hs =>
    rw [scanChunksFrom_eq] at h
    simp only [hs] at h
    subst h
    obtain ⟨payload', hs'⟩ := chunkStep_malformed_append s hs
    rw [scanChunksFrom_eq]
    simp only [hs']
  | case2 pos data consumed hs =>
    rw [scanChunksFrom_eq] at h
    simp [hs] at h
  | case3 pos data payload pos' hs ih =>
    rw [scanChunksFrom_eq] at h ⊢
    simp only [hs] at h
    have hlt := chunkStep_next_lt hs
    have hst : body.take body.length = (body ++ s).take body.length := by simp
    simp only [chunkStep_next_congr hst (by omega) hs]
    exact ih h

theorem scanChunked_consumed {body : Bytes} (h : (scanChunked body).state = .complete) :
    (scanChunked body).consumed ≤ body.length := (scanChunksFrom_consumed h).2

theorem scanChunked_congr {body t : Bytes} {n : ℕ} (hst : body.take n = t.take n)
    (h : (scanChunked body).state = .complete) (hn : (scanChunked body).consumed ≤ n) :
    scanChunked t = scanChunked body := scanChunksFrom_congr hst h hn

theorem scanChunked_malformed_append {body : Bytes} (s : Bytes)
    (h : (scanChunked body).state = .malformed) : (scanChunked (body ++ s)).state = .malformed :=
  scanChunksFrom_malformed_append s h

end Vermell.Http
