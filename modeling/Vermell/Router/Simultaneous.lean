import Vermell.Router.Template

/-! The passes of `render` against a substitution of all markers at once. A second run of the passes
keeps track of the bytes that came out of values. -/
namespace Vermell.Router
open Http Text

/-- Each marker's value, with the text behind the marker. -/
def expand (vars : Variables) (markers : List (Bytes × Bytes)) : Bytes :=
  markers.flatMap fun marker => escapeHtml (valueOf vars marker.1) ++ marker.2

/-- The template with every marker replaced. -/
def substitute (vars : Variables) (template : Bytes) : Bytes :=
  (cutMarkers template).1 ++ expand vars (cutMarkers template).2

/-- A text that knows which of its bytes came out of a value. -/
abbrev Tracked := List (UInt8 × Bool)

def ofTemplate (s : Bytes) : Tracked := s.map (·, false)
def ofValue (s : Bytes) : Tracked := s.map (·, true)

def erase (body : Tracked) : Bytes := body.map Prod.fst

/-- `bodyTratament`, as long as no byte of a value takes part in a marker or in a marker's end. -/
def trackedTratament (vars : Variables) (body : Tracked) : Option Tracked :=
  match findMarker (erase body) with
  | .absent => some body
  | .unclosed => none
  | .found opening closing =>
    if ((body.drop opening).take (closing + 2 - opening)).any Prod.snd then none
    else
      let name := ((erase body).drop (opening + 2)).take (closing - opening - 2)
      some (body.take opening ++ ofValue (escapeHtml (valueOf vars name)) ++
        body.drop (closing + 2))

def trackedPasses (vars : Variables) : ℕ → Tracked → Option Tracked
  | 0, body => some body
  | n + 1, body => (trackedTratament vars body).bind (trackedPasses vars n)

/-- In no pass of `render` is a byte of a value part of a marker or of a marker's end. -/
def NeverInterpreted (vars : Variables) (template : Bytes) : Prop :=
  (trackedPasses vars vars.length (ofTemplate template)).isSome

/-- What the passes need of the variables: the values bring no closing in front of a marker that is
still to be replaced, no pair of brackets at all when there are passes left, and the markers behind
the last pass stand for themselves. -/
structure CleanValues (vars : Variables) (passes : ℕ) (head : Bytes)
    (markers : List (Bytes × Bytes)) : Prop where
  before : ∀ i < min passes markers.length,
    NoPair CLOSE_BRACKET (head ++ expand vars (markers.take i))
  left : markers.length < passes → NoPair OPEN_BRACKET (head ++ expand vars markers) ∧
    NoPair CLOSE_BRACKET (head ++ expand vars markers)
  enough : expand vars (markers.drop passes) = writeMarkers (markers.drop passes)

@[simp] theorem erase_append (s t : Tracked) : erase (s ++ t) = erase s ++ erase t :=
  List.map_append

@[simp] theorem ofTemplate_append (s t : Bytes) :
    ofTemplate (s ++ t) = ofTemplate s ++ ofTemplate t := List.map_append

@[simp] theorem length_erase (s : Tracked) : (erase s).length = s.length := List.length_map ..

@[simp] theorem length_ofTemplate (s : Bytes) : (ofTemplate s).length = s.length :=
  List.length_map ..

@[simp] theorem erase_ofTemplate (s : Bytes) : erase (ofTemplate s) = s := by
  simp [erase, ofTemplate, Function.comp_def]

@[simp] theorem erase_ofValue (s : Bytes) : erase (ofValue s) = s := by
  simp [erase, ofValue, Function.comp_def]

/-- The tracked passes are those of the code. -/
theorem trackedTratament_erase {vars : Variables} {body body' : Tracked}
    (h : trackedTratament vars body = some body') :
    bodyTratament vars (erase body) = erase body' := by
  unfold trackedTratament at h
  unfold bodyTratament
  cases hmarker : findMarker (erase body) with
  | absent =>
    simp only [hmarker] at h
    obtain rfl := Option.some.inj h
    rfl
  | unclosed => simp [hmarker] at h
  | found opening closing =>
    simp only [hmarker] at h
    split_ifs at h
    obtain rfl := Option.some.inj h
    simp [erase, ofValue, Function.comp_def]

theorem trackedPasses_erase {vars : Variables} {n : ℕ} {body body' : Tracked}
    (h : trackedPasses vars n body = some body') :
    renderPasses vars n (erase body) = erase body' := by
  induction n generalizing body with
  | zero =>
    obtain rfl := Option.some.inj h
    rfl
  | succ n ih =>
    obtain ⟨next, hnext, hrest⟩ := Option.bind_eq_some_iff.mp h
    rw [renderPasses, trackedTratament_erase hnext]
    exact ih hrest

/-! The scan. -/

theorem scanMarker_snd (iter : ℕ) (opening : Option ℕ) (s : Bytes) :
    (scanMarker iter opening s).2 = (find CLOSE_DATA s).map (· + iter) := by
  induction s generalizing iter opening with
  | nil => rfl
  | cons a s ih =>
    cases s with
    | nil => simp [scanMarker, find, CLOSE_DATA]
    | cons b s =>
      have hhere : CLOSE_DATA <+: a :: b :: s ↔ a = CLOSE_BRACKET ∧ b = CLOSE_BRACKET := by
        simp [CLOSE_DATA, eq_comm]
      have hboth : ¬((a = OPEN_BRACKET ∧ b = OPEN_BRACKET) ∧ CLOSE_DATA <+: a :: b :: s) := by
        rw [hhere]
        rintro ⟨⟨rfl, -⟩, h, -⟩
        exact absurd h (by decide)
      have hbehind : ((find CLOSE_DATA (b :: s)).map (· + 1)).map (· + iter) =
          (find CLOSE_DATA (b :: s)).map (· + (iter + 1)) := by
        rw [Option.map_map]
        congr 1
        funext i
        simp only [Function.comp_apply]
        omega
      rw [scanMarker, find]
      by_cases hopen : a = OPEN_BRACKET ∧ b = OPEN_BRACKET
      · rw [if_pos hopen, if_neg fun h => hboth ⟨hopen, h⟩, ih, hbehind]
      · by_cases hclose : a = CLOSE_BRACKET ∧ b = CLOSE_BRACKET
        · rw [if_neg hopen, if_pos hclose, if_pos (hhere.mpr hclose)]
          simp
        · rw [if_neg hopen, if_neg hclose, if_neg (hhere.not.mpr hclose), ih, hbehind]

theorem scanMarker_absent_iff {s : Bytes} (h : NoPair CLOSE_BRACKET s) (iter : ℕ)
    (opening : Option ℕ) :
    (scanMarker iter opening s).1 = none ↔ opening = none ∧ NoPair OPEN_BRACKET s := by
  unfold NoPair at h ⊢
  induction s generalizing iter opening with
  | nil => simp [scanMarker]
  | cons a s ih =>
    cases s with
    | nil => simp [scanMarker]
    | cons b s =>
      rw [List.isChain_cons_cons] at h ⊢
      rw [scanMarker]
      rw [if_neg h.1]
      split_ifs with hopen
      · rw [ih h.2]
        simp [hopen]
      · rw [ih h.2]
        simp [hopen]

/-- A text without a closing is passed over, up to an opening bracket. -/
theorem scanMarker_before {s : Bytes} (hs : NoPair CLOSE_BRACKET s) (iter : ℕ)
    (opening : Option ℕ) (t : Bytes) : ∃ opening',
    scanMarker iter opening (s ++ OPEN_BRACKET :: t) =
      scanMarker (iter + s.length) opening' (OPEN_BRACKET :: t) := by
  unfold NoPair at hs
  induction s generalizing iter opening with
  | nil => exact ⟨opening, rfl⟩
  | cons a s ih =>
    obtain ⟨b, w, hw⟩ := List.exists_cons_of_ne_nil
      (List.append_ne_nil_of_right_ne_nil s (List.cons_ne_nil OPEN_BRACKET t))
    have hpair : ¬(a = CLOSE_BRACKET ∧ b = CLOSE_BRACKET) := by
      cases s with
      | nil =>
        obtain rfl := (List.cons.inj hw).1
        simp [OPEN_BRACKET, CLOSE_BRACKET]
      | cons c s =>
        obtain rfl := (List.cons.inj hw).1
        exact (List.isChain_cons_cons.mp hs).1
    have hiter : iter + (a :: s).length = iter + 1 + s.length := by
      rw [List.length_cons]
      omega
    rw [List.cons_append, hw, hiter]
    rw [hw] at ih
    rw [scanMarker, if_neg hpair]
    split_ifs
    · exact ih hs.tail (iter + 1) (some iter)
    · exact ih hs.tail (iter + 1) opening

/-- A text without pairs is passed over, up to a closing. -/
theorem scanMarker_inside {s : Bytes} (hopen : NoPair OPEN_BRACKET (s ++ [CLOSE_BRACKET]))
    (hclose : NoPair CLOSE_BRACKET (s ++ [CLOSE_BRACKET])) (iter : ℕ) (opening : Option ℕ)
    (t : Bytes) :
    scanMarker iter opening (s ++ CLOSE_BRACKET :: CLOSE_BRACKET :: t) =
      (opening, some (iter + s.length)) := by
  unfold NoPair at hopen hclose
  induction s generalizing iter with
  | nil => simp [scanMarker, OPEN_BRACKET, CLOSE_BRACKET]
  | cons a s ih =>
    obtain ⟨b, w, hw⟩ := List.exists_cons_of_ne_nil
      (List.append_ne_nil_of_right_ne_nil s (List.cons_ne_nil CLOSE_BRACKET []))
    have hsplit : s ++ CLOSE_BRACKET :: CLOSE_BRACKET :: t =
        s ++ [CLOSE_BRACKET] ++ CLOSE_BRACKET :: t := by simp
    rw [List.cons_append, hw, List.isChain_cons_cons] at hopen hclose
    rw [hw] at ih
    rw [hsplit, hw] at ih
    rw [List.cons_append, hsplit, hw, List.cons_append, scanMarker, if_neg hopen.1,
      if_neg hclose.1]
    rw [List.cons_append] at ih
    rw [ih hopen.2 hclose.2, List.length_cons]
    congr 2
    omega

/-- A marker behind a text without a closing is found. -/
theorem findMarker_marker {s : Bytes} (hs : NoPair CLOSE_BRACKET s) {marker : Bytes × Bytes}
    (hm : PlainMarker marker) (t : Bytes) :
    findMarker (s ++ (OPEN_DATA ++ marker.1 ++ CLOSE_DATA ++ t)) =
      .found s.length (s.length + 2 + marker.1.length) := by
  obtain ⟨opening, hbefore⟩ := scanMarker_before hs 0 none
    (OPEN_BRACKET :: (marker.1 ++ CLOSE_BRACKET :: CLOSE_BRACKET :: t))
  have hinside := scanMarker_inside hm.noOpen hm.noClose (0 + s.length + 1) (some (0 + s.length)) t
  have hscan : scanMarker 0 none (s ++ (OPEN_DATA ++ marker.1 ++ CLOSE_DATA ++ t)) =
      (some s.length, some (s.length + 2 + marker.1.length)) := by
    have htext : s ++ (OPEN_DATA ++ marker.1 ++ CLOSE_DATA ++ t) = s ++ OPEN_BRACKET ::
        (OPEN_BRACKET :: (marker.1 ++ CLOSE_BRACKET :: CLOSE_BRACKET :: t)) := by
      simp [OPEN_DATA, CLOSE_DATA]
    rw [List.cons_append] at hinside
    rw [htext, hbefore, scanMarker, if_pos ⟨rfl, rfl⟩, hinside, List.length_cons]
    congr 2
    · omega
    · omega
  rw [findMarker, hscan]
  simp
  omega

/-! One tracked pass. -/

/-- Every closing in the text has a byte of a value. -/
def NoPlainClosing (body : Tracked) : Prop :=
  body.IsChain fun x y => ¬(x = (CLOSE_BRACKET, false) ∧ y = (CLOSE_BRACKET, false))

theorem noPlainClosing_ofTemplate {s : Bytes} (h : NoPair CLOSE_BRACKET s) :
    NoPlainClosing (ofTemplate s) := by
  unfold NoPlainClosing ofTemplate
  rw [List.isChain_map]
  exact h.imp fun a b hab => by simpa using hab

/-- A value and the text behind its marker bring no closing of the template's bytes alone. -/
theorem NoPlainClosing.append {body : Tracked} (h : NoPlainClosing body) (value : Bytes)
    {marker : Bytes × Bytes} (hm : PlainMarker marker) :
    NoPlainClosing (body ++ ofValue value ++ ofTemplate marker.2) := by
  have hvalue : NoPlainClosing (ofValue value) := by
    unfold NoPlainClosing ofValue
    rw [List.isChain_map]
    exact List.Pairwise.isChain (List.pairwise_of_forall (by simp))
  refine List.isChain_append.mpr ⟨List.isChain_append.mpr ⟨h, hvalue, ?_⟩,
    noPlainClosing_ofTemplate hm.behind.tail, ?_⟩
  · intro x _ y hy
    obtain ⟨c, -, rfl⟩ := List.mem_map.mp (List.mem_of_mem_head? hy)
    simp
  · intro x _ y hy
    rw [ofTemplate, List.head?_map, Option.mem_def, Option.map_eq_some_iff] at hy
    obtain ⟨c, hc, rfl⟩ := hy
    have hne := (List.isChain_cons.mp hm.behind).1 c hc
    simpa using fun _ h => hne ⟨rfl, h⟩

/-- Behind a text without a closing, the next marker is replaced. -/
theorem trackedTratament_marker (vars : Variables) {body : Tracked}
    (hbody : NoPair CLOSE_BRACKET (erase body)) {marker : Bytes × Bytes}
    (hm : PlainMarker marker) (t : Bytes) :
    trackedTratament vars (body ++ ofTemplate (OPEN_DATA ++ marker.1 ++ CLOSE_DATA ++ t)) =
      some (body ++ ofValue (escapeHtml (valueOf vars marker.1)) ++ ofTemplate t) := by
  have hplain (s : Bytes) (k : ℕ) : ((ofTemplate s).take k).any Prod.snd = false := by
    rw [List.any_eq_false]
    intro x hx
    obtain ⟨c, -, rfl⟩ := List.mem_map.mp (List.mem_of_mem_take hx)
    simp
  have hname : ((erase body ++ (OPEN_DATA ++ marker.1 ++ CLOSE_DATA ++ t)).drop
      (body.length + 2)).take (body.length + 2 + marker.1.length - body.length - 2) =
        marker.1 := by
    have htext : erase body ++ (OPEN_DATA ++ marker.1 ++ CLOSE_DATA ++ t) =
        erase body ++ OPEN_DATA ++ (marker.1 ++ (CLOSE_DATA ++ t)) := by simp
    rw [htext, List.drop_left' (by simp [OPEN_DATA]), List.take_left' (by omega)]
  have hrest : (body ++ ofTemplate (OPEN_DATA ++ marker.1 ++ CLOSE_DATA ++ t)).drop
      (body.length + 2 + marker.1.length + 2) = ofTemplate t := by
    rw [ofTemplate_append, ← List.append_assoc]
    refine List.drop_left' ?_
    simp [OPEN_DATA, CLOSE_DATA]
    omega
  unfold trackedTratament
  rw [erase_append, erase_ofTemplate, findMarker_marker hbody hm, length_erase]
  simp only [List.drop_left, hplain, hname, hrest, List.take_left]
  rfl

/-- One of the two brackets at the first closing came out of a value. -/
theorem NoPlainClosing.at_find {body : Tracked} (hbody : NoPlainClosing body) {i : ℕ}
    (hfind : find CLOSE_DATA (erase body) = some i) :
    ∃ x y r, body.drop i = x :: y :: r ∧ (x.2 || y.2) = true := by
  obtain ⟨-, hocc, -⟩ := (find_eq_some_iff _ _ _).mp hfind
  have hchain : NoPlainClosing (body.drop i) := hbody.drop i
  rw [erase, ← List.map_drop] at hocc
  match hbytes : body.drop i with
  | [] => simp [hbytes, CLOSE_DATA] at hocc
  | [x] => simp [hbytes, CLOSE_DATA] at hocc
  | (a, p) :: (b, q) :: r =>
    refine ⟨_, _, r, rfl, ?_⟩
    rw [hbytes] at hocc hchain
    obtain ⟨rfl, rfl⟩ : CLOSE_BRACKET = a ∧ CLOSE_BRACKET = b := by
      simpa [CLOSE_DATA] using hocc
    have hpair := (List.isChain_cons_cons.mp hchain).1
    cases p <;> cases q <;> simp at hpair ⊢

/-- A marker that ends at such a closing holds a byte of a value. -/
theorem NoPlainClosing.value_inside {body : Tracked} (hbody : NoPlainClosing body) {i opening : ℕ}
    (hfind : find CLOSE_DATA (erase body) = some i) (hle : opening ≤ i) (t : Tracked) :
    (((body ++ t).drop opening).take (i + 2 - opening)).any (·.2) = true := by
  obtain ⟨-, hocc, -⟩ := (find_eq_some_iff _ _ _).mp hfind
  have hin := occurs_length (List.cons_ne_nil _ _) hocc
  have hopening : opening ≤ body.length := by
    simp at hin
    omega
  obtain ⟨x, y, r, hdrop, hvalue⟩ := hbody.at_find hfind
  have hbehind : body.drop opening = (body.drop opening).take (i - opening) ++ x :: y :: r := by
    conv_lhs => rw [← List.take_append_drop (i - opening) (body.drop opening)]
    rw [List.drop_drop, Nat.add_sub_cancel' hle, hdrop]
  have hlen : ((body.drop opening).take (i - opening)).length = i - opening := by
    simp at hin ⊢
    omega
  rw [List.drop_append_of_le_length hopening, hbehind]
  generalize (body.drop opening).take (i - opening) = u at hlen
  have htext : u ++ x :: y :: r ++ t = u ++ [x, y] ++ (r ++ t) := by simp
  rw [htext, List.take_left' (by simp; omega)]
  simp [hvalue]

/-- A closing that a value brings is taken for the end of a marker. -/
theorem trackedTratament_closing (vars : Variables) {body : Tracked} (hbody : NoPlainClosing body)
    (h : ¬NoPair CLOSE_BRACKET (erase body)) (t : Tracked) :
    trackedTratament vars (body ++ t) = none := by
  cases hfind : find CLOSE_DATA (erase body) with
  | none => exact absurd (find_pair_eq_none_iff.mp hfind) h
  | some i =>
    have hclosing := scanMarker_snd 0 none (erase (body ++ t))
    have hfirst : find CLOSE_DATA (erase body ++ erase t) = some i :=
      find_append_right (List.cons_ne_nil _ _) hfind (erase t)
    rw [erase_append, hfirst, Option.map_some, Nat.add_zero] at hclosing
    unfold trackedTratament findMarker
    rw [erase_append]
    cases hscan : scanMarker 0 none (erase body ++ erase t) with
    | mk opening closing =>
      rw [hscan] at hclosing
      obtain rfl : closing = some i := hclosing
      cases opening with
      | none => rfl
      | some opening =>
        by_cases hlt : i < opening
        · simp [hlt]
        · have hany := hbody.value_inside hfind (not_lt.mp hlt) t
          simp [hlt, hany]

/-- Where there is no closing, an opening is taken for a marker without an end. -/
theorem trackedTratament_rest (vars : Variables) {body : Tracked}
    (h : NoPair CLOSE_BRACKET (erase body)) :
    trackedTratament vars body = some body ∧ NoPair OPEN_BRACKET (erase body) ∨
      trackedTratament vars body = none ∧ ¬NoPair OPEN_BRACKET (erase body) := by
  have hnone : find CLOSE_DATA (erase body) = none := find_pair_eq_none_iff.mpr h
  have hclosing := scanMarker_snd 0 none (erase body)
  rw [hnone, Option.map_none] at hclosing
  have hopening := scanMarker_absent_iff h 0 none
  unfold trackedTratament findMarker
  cases hscan : scanMarker 0 none (erase body) with
  | mk opening closing =>
    rw [hscan] at hclosing hopening
    obtain rfl : closing = none := hclosing
    cases opening with
    | none => exact Or.inl ⟨rfl, (hopening.mp rfl).2⟩
    | some opening => exact Or.inr ⟨rfl, fun hno => nomatch hopening.mpr ⟨rfl, hno⟩⟩

/-! All passes. -/

theorem expand_cons (vars : Variables) (marker : Bytes × Bytes) (markers : List (Bytes × Bytes)) :
    expand vars (marker :: markers) =
      escapeHtml (valueOf vars marker.1) ++ marker.2 ++ expand vars markers :=
  List.flatMap_cons

theorem writeMarkers_cons (marker : Bytes × Bytes) (markers : List (Bytes × Bytes)) :
    writeMarkers (marker :: markers) =
      OPEN_DATA ++ marker.1 ++ CLOSE_DATA ++ (marker.2 ++ writeMarkers markers) := by
  simp [writeMarkers]

theorem cleanValues_cons_iff (vars : Variables) (n : ℕ) (head : Bytes) (marker : Bytes × Bytes)
    (markers : List (Bytes × Bytes)) :
    CleanValues vars (n + 1) head (marker :: markers) ↔ NoPair CLOSE_BRACKET head ∧
      CleanValues vars n (head ++ escapeHtml (valueOf vars marker.1) ++ marker.2) markers := by
  have hexpand (l : List (Bytes × Bytes)) : head ++ expand vars (marker :: l) =
      head ++ escapeHtml (valueOf vars marker.1) ++ marker.2 ++ expand vars l := by
    simp [expand_cons]
  have hmin : min (n + 1) (marker :: markers).length = min n markers.length + 1 := by
    simp
  constructor
  · intro h
    refine ⟨by simpa [expand] using h.before 0 (by omega), ?_, ?_, h.enough⟩
    · intro i hi
      have hbefore := h.before (i + 1) (by omega)
      rwa [List.take_succ_cons, hexpand] at hbefore
    · intro hlt
      rw [← hexpand]
      exact h.left (by simpa using hlt)
  · rintro ⟨hhead, h⟩
    refine ⟨?_, ?_, h.enough⟩
    · intro i hi
      cases i with
      | zero => simpa [expand] using hhead
      | succ i =>
        rw [List.take_succ_cons, hexpand]
        exact h.before i (by omega)
    · intro hlt
      rw [hexpand]
      exact h.left (by simpa using hlt)

/-- Without markers, any pass asks for a text without pairs. -/
theorem cleanValues_nil_iff (vars : Variables) (n : ℕ) (head : Bytes) :
    CleanValues vars n head [] ↔
      (0 < n → NoPair OPEN_BRACKET head ∧ NoPair CLOSE_BRACKET head) := by
  constructor
  · intro h hpos
    simpa [expand] using h.left hpos
  · intro h
    refine ⟨by simp, fun hlt => ?_, by simp [expand, writeMarkers]⟩
    simpa [expand] using h hlt

/-- The passes reach the substitution exactly when the values are clean. -/
theorem trackedPasses_iff (vars : Variables) {markers : List (Bytes × Bytes)}
    (hm : ∀ marker ∈ markers, PlainMarker marker) (n : ℕ) {body : Tracked}
    (hbody : NoPlainClosing body) :
    (trackedPasses vars n (body ++ ofTemplate (writeMarkers markers))).map erase =
        some (erase body ++ expand vars markers) ↔
      CleanValues vars n (erase body) markers := by
  induction n generalizing body markers with
  | zero =>
    have hpasses : (trackedPasses vars 0 (body ++ ofTemplate (writeMarkers markers))).map erase =
        some (erase body ++ writeMarkers markers) := by
      simp [trackedPasses]
    rw [hpasses, Option.some_inj, List.append_cancel_left_eq, eq_comm]
    exact ⟨fun h => ⟨by simp, by simp, h⟩, fun h => h.enough⟩
  | succ n ih =>
    cases markers with
    | nil =>
      have hnext := ih hm hbody
      rw [cleanValues_nil_iff] at hnext ⊢
      rw [trackedPasses]
      by_cases hclose : NoPair CLOSE_BRACKET (erase body)
      · have htext : body ++ ofTemplate (writeMarkers []) = body := List.append_nil body
        rw [htext] at hnext ⊢
        obtain ⟨hpass, hopen⟩ | ⟨hpass, hopen⟩ := trackedTratament_rest vars hclose
        · rw [hpass, Option.bind_some, hnext]
          simp [hopen, hclose]
        · rw [hpass]
          simp [hopen]
      · rw [trackedTratament_closing vars hbody hclose]
        simp [hclose]
    | cons marker markers =>
      obtain ⟨hmarker, hm⟩ := List.forall_mem_cons.mp hm
      rw [cleanValues_cons_iff, trackedPasses, writeMarkers_cons, expand_cons]
      by_cases hhead : NoPair CLOSE_BRACKET (erase body)
      · have hnext := ih hm (hbody.append (escapeHtml (valueOf vars marker.1)) hmarker)
        simp only [erase_append, erase_ofValue, erase_ofTemplate] at hnext
        rw [trackedTratament_marker vars hhead hmarker, Option.bind_some, ofTemplate_append,
          ← List.append_assoc, ← List.append_assoc, ← List.append_assoc, hnext]
        simp [hhead]
      · rw [trackedTratament_closing vars hbody hhead]
        simp [hhead]

/-- `render` replaces all markers at once, and takes no part of a value for a marker, exactly when
the values are clean. -/
theorem render_simultaneous_iff {disk : Disk} {sec : RenderSecurity} {path template : Bytes}
    (hwithin : disk.isWithin (effectiveRoot sec) path = true)
    (hread : disk.readBounded path sec.maxFileBytes = ⟨.ok, template⟩)
    (halternates : alternates false template = true) (vars : Variables) :
    (render disk sec vars path = substitute vars template ∧ NeverInterpreted vars template) ↔
      CleanValues vars vars.length (cutMarkers template).1 (cutMarkers template).2 := by
  obtain ⟨hhead, hmarkers⟩ := cutMarkers_plain halternates
  have hpasses := trackedPasses_iff vars hmarkers vars.length
    (noPlainClosing_ofTemplate hhead)
  rw [← ofTemplate_append, cutMarkers_write, erase_ofTemplate] at hpasses
  have hrender : render disk sec vars path = renderPasses vars vars.length template := by
    simp [render, renderBody, hwithin, hread]
  rw [hrender, ← hpasses, NeverInterpreted, substitute]
  cases htracked : trackedPasses vars vars.length (ofTemplate template) with
  | none => simp
  | some body =>
    have herase := trackedPasses_erase htracked
    rw [erase_ofTemplate] at herase
    simp [herase]

/-- A disk on which every path holds this template. -/
def templateDisk (template : Bytes) : Disk :=
  { emptyDisk with readBounded := fun _ _ => ⟨.ok, template⟩ }

theorem render_simultaneous_greeting :
    let vars : Variables := [(bytes "name", bytes "<Ann>")]
    let template := bytes "Hello [[name]]!"
    render (templateDisk template) {} vars (bytes "t.html") = substitute vars template ∧
      NeverInterpreted vars template := by
  intro vars template
  have hcut : cutMarkers template = (bytes "Hello ", [(bytes "name", bytes "!")]) := by
    rw [cutMarkers_of_find 6 4 (by decide) (by decide),
      cutMarkers_of_none (by decide)]
    rfl
  have hwithin : (templateDisk template).isWithin (effectiveRoot {}) (bytes "t.html") = true := rfl
  refine (render_simultaneous_iff hwithin rfl (by decide) vars).mpr ?_
  rw [hcut]
  refine ⟨?_, by simp [vars], rfl⟩
  intro i hi
  obtain rfl : i = 0 := by simpa [vars] using hi
  exact find_pair_eq_none_iff.mp (by decide)

/-- One variable, one pass, and two markers. -/
theorem second_marker_left :
    let vars : Variables := [(bytes "name", bytes "Ann")]
    let template := bytes "[[name]] and [[name]]"
    alternates false template = true ∧
      render (templateDisk template) {} vars (bytes "t.html") ≠ substitute vars template := by
  intro vars template
  have hcut : cutMarkers template =
      ([], [(bytes "name", bytes " and "), (bytes "name", [])]) := by
    rw [cutMarkers_of_find 0 4 (by decide) (by decide),
      cutMarkers_of_find 5 4 (by decide) (by decide),
      cutMarkers_of_none (by decide)]
    rfl
  refine ⟨by decide, ?_⟩
  rw [substitute, hcut]
  decide

end Vermell.Router
