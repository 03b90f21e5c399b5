import Vermell.Http.FormData

/-! `UploadedFile::save_to` on the files of `parse_multipart`: where the paths it writes to lie. -/
namespace Vermell.Http
open Text

def isSlash (c : UInt8) : Bool := c == SLASH

/-- `find_first_of("/\\")` -/
def isSeparator (c : UInt8) : Bool := c == SLASH || c == BACKSLASH

/-- A drive letter and a colon. -/
def hasDrive : Bytes → Bool
  | letter :: colon :: _ => colon == COLON && (isUpper letter || isLower letter)
  | _ => false

/-- The checks of `save_to`. -/
def acceptsPath (path : Bytes) : Bool :=
  if path = [] ∨ path.head? = some SLASH ∨ path.head? = some BACKSLASH then false
  else if hasDrive path then false
  else (path.splitOnP isSeparator).all fun segment => segment ≠ [DOT, DOT] && !segment.contains 0

/-- `save_to`, where `write` opens a path, truncates the file and writes a text to it. -/
def UploadedFile.saveTo {σ : Type} (write : Bytes → Bytes → σ → Bool × σ) (file : UploadedFile)
    (path : Bytes) (files : σ) : Bool × σ :=
  if acceptsPath path then write path file.content files else (false, files)

/-- The names that a path follows one after the other. -/
def pathNames (sep : UInt8 → Bool) (path : Bytes) : List Bytes :=
  (path.splitOnP sep).filter fun name => name ≠ [] && name ≠ [DOT]

/-- Where a path leads from a directory, whatever the directories and links in it are. -/
def walk {δ : Type} (enter : δ → Bytes → Option δ) (sep : UInt8 → Bool) (path : Bytes) (dir : δ) :
    Option δ :=
  (pathNames sep path).foldlM enter dir

/-- A relative path that never leads up and that the system call gets whole, whether a backslash
separates names or not. -/
structure StaysBelow (path : Bytes) : Prop where
  relative : path.head? ≠ some SLASH ∧ path.head? ≠ some BACKSLASH ∧ hasDrive path = false
  down : ∀ sep ∈ [isSlash, isSeparator], [DOT, DOT] ∉ pathNames sep path
  whole : 0 ∉ path

/-- The path of the entry of this name in a directory. -/
structure EntryOf (d name path : Bytes) : Prop extends StaysBelow path where
  names : ∀ sep ∈ [isSlash, isSeparator], pathNames sep path = pathNames sep d ++ [name]

/-- The name of an entry. -/
structure BareName (name : Bytes) : Prop where
  nonempty : name ≠ []
  notSelf : name ≠ [DOT]
  notParent : name ≠ [DOT, DOT]
  noSeparator : SLASH ∉ name ∧ BACKSLASH ∉ name
  noControl : ∀ c ∈ name, isControl c = false

/-- An entry is entered from its directory. -/
theorem EntryOf.walk {d name path : Bytes} (h : EntryOf d name path) {δ : Type}
    (enter : δ → Bytes → Option δ) {sep : UInt8 → Bool} (hsep : sep ∈ [isSlash, isSeparator])
    (dir : δ) : walk enter sep path dir = (walk enter sep d dir).bind (enter · name) := by
  unfold Http.walk
  rw [h.names sep hsep, List.foldlM_append]
  simp [List.foldlM_cons]

theorem sanitizeFilename_bare {name : Bytes} (h : sanitizeFilename name ≠ []) :
    BareName (sanitizeFilename name) := by
  have hname (c : UInt8) (hc : c ∈ name.rtakeWhile fun c => c != SLASH && c != BACKSLASH) :
      (c != SLASH && c != BACKSLASH) = true := by
    have hkept := List.mem_rtakeWhile_imp hc
    exact hkept
  unfold sanitizeFilename at h ⊢
  dsimp only at h ⊢
  split_ifs at h ⊢ with hdots hcontrol
  · exact absurd rfl h
  · exact absurd rfl h
  · rw [not_or, not_or] at hdots
    refine ⟨hdots.1, hdots.2.1, hdots.2.2, ⟨fun hslash => ?_, fun hback => ?_⟩, ?_⟩
    · exact absurd (hname _ hslash) (by decide)
    · exact absurd (hname _ hback) (by decide)
    · intro c hc
      have hfree := List.any_eq_false.mp (Bool.eq_false_iff.mpr hcontrol) c hc
      simpa using hfree

/-- Every file has a field, and the name of an entry. -/
def Multipart.Named (m : Multipart) : Prop :=
  ∀ file ∈ m.files, file.field ≠ [] ∧ BareName file.filename

theorem addPart_named {result : Multipart} (h : result.Named) (part : Bytes) :
    (result.addPart part).Named := by
  unfold Multipart.addPart
  extract_lets split partHeaders content headers name filename mime
  split_ifs with hname hfilename
  · exact h
  · intro file hfile
    cases List.mem_append.mp hfile with
    | inl hfile =>
      exact h file hfile
    | inr hfile =>
      obtain rfl := List.mem_singleton.mp hfile
      exact ⟨hname, sanitizeFilename_bare hfilename⟩
  · exact h

theorem multipartLoop_named (boundary : Bytes) {result : Multipart} (h : result.Named) (s : Bytes) :
    (multipartLoop boundary result s).Named := by
  fun_induction multipartLoop boundary result s with
  | case1 result s hend => exact h
  | case2 result s hmore hnone => exact h
  | case3 result s hmore next hnext ih => exact ih (addPart_named h _)

theorem parseMultipart_named (body boundary : Bytes) : (parseMultipart body boundary).Named := by
  have hempty : ({} : Multipart).Named := by
    intro file hfile
    cases hfile
  unfold parseMultipart
  split_ifs
  · exact hempty
  · cases find (delimiter boundary) body with
    | none => exact hempty
    | some pos => exact multipartLoop_named boundary hempty _

theorem acceptsPath_iff (path : Bytes) : acceptsPath path = true ↔
    (path ≠ [] ∧ path.head? ≠ some SLASH ∧ path.head? ≠ some BACKSLASH) ∧ hasDrive path = false ∧
      ∀ segment ∈ path.splitOnP isSeparator, segment ≠ [DOT, DOT] ∧ 0 ∉ segment := by
  unfold acceptsPath
  split_ifs with hstart hdrive
  · simp only [false_iff]
    tauto
  · simp [hdrive]
  · rw [not_or, not_or] at hstart
    simp [hstart, hdrive]

/-- What the checks of `save_to` let through stays below the directory it starts from. -/
theorem acceptsPath_staysBelow {path : Bytes} (h : acceptsPath path = true) : StaysBelow path := by
  obtain ⟨⟨-, hslash, hback⟩, hdrive, hsegments⟩ := (acceptsPath_iff path).mp h
  refine ⟨⟨hslash, hback, hdrive⟩, ?_, ?_⟩
  · intro sep hsep hup
    have hfiner : ∀ c, sep c = true → isSeparator c = true := by
      rcases List.mem_pair.mp hsep with rfl | rfl
      · exact fun c hc => Bool.or_eq_true_iff.mpr (.inl hc)
      · exact fun c hc => hc
    -- two dots between two separators are two dots between two of more separators
    have hpiece := (List.mem_filter.mp hup).1
    have hup' : [DOT, DOT] ∈ path.splitOnP isSeparator := by
      rw [← splitOnP_refine hfiner]
      exact List.mem_flatMap.mpr ⟨[DOT, DOT], hpiece, by decide⟩
    exact (hsegments _ hup').1 rfl
  · intro hnul
    have hzero : isSeparator 0 = false := rfl
    obtain ⟨segment, hsegment, hin⟩ := exists_mem_splitOnP hzero hnul
    exact (hsegments segment hsegment).2 hin

/-- `save_to` writes no file but below the directory it starts from. -/
theorem saveTo_staysBelow {σ : Type} {write : Bytes → Bytes → σ → Bool × σ} {file : UploadedFile}
    {path : Bytes} {files : σ} (h : file.saveTo write path files ≠ (false, files)) :
    StaysBelow path := by
  unfold UploadedFile.saveTo at h
  split_ifs at h with haccepted
  · exact acceptsPath_staysBelow haccepted
  · exact absurd rfl h

/-- A bare name is one piece between separators. -/
theorem BareName.splitOnP {name : Bytes} (h : BareName name) {sep : UInt8 → Bool}
    (hsep : sep ∈ [isSlash, isSeparator]) (d : Bytes) :
    (d ++ SLASH :: name).splitOnP sep = d.splitOnP sep ++ [name] := by
  have hslash : sep SLASH = true := by
    rcases List.mem_pair.mp hsep with rfl | rfl
    · rfl
    · rfl
  have hfree (c : UInt8) (hc : c ∈ name) : sep c = false := by
    have hne : c ≠ SLASH := fun heq => h.noSeparator.1 (heq ▸ hc)
    have hne' : c ≠ BACKSLASH := fun heq => h.noSeparator.2 (heq ▸ hc)
    rcases List.mem_pair.mp hsep with rfl | rfl
    · simpa [isSlash] using hne
    · simp [isSeparator, hne, hne']
  rw [List.splitOnP_append_cons _ _ hslash, List.splitOnP_eq_singleton hfree]

/-- A bare name behind an accepted directory. -/
theorem acceptsPath_entry {d name : Bytes} (hd : acceptsPath d = true) (hname : BareName name) :
    acceptsPath (d ++ SLASH :: name) = true ∧ EntryOf d name (d ++ SLASH :: name) := by
  obtain ⟨⟨hsome, hslash, hback⟩, hdrive, hsegments⟩ := (acceptsPath_iff d).mp hd
  have haccepted : acceptsPath (d ++ SLASH :: name) = true := by
    obtain ⟨c, d, rfl⟩ := List.exists_cons_of_ne_nil hsome
    refine (acceptsPath_iff _).mpr ⟨⟨by simp, hslash, hback⟩, ?_, ?_⟩
    · cases d with
      | nil => rfl
      | cons => exact hdrive
    · rw [hname.splitOnP (by simp)]
      refine List.forall_mem_append.mpr ⟨hsegments, List.forall_mem_singleton.mpr ?_⟩
      refine ⟨hname.notParent, ?_⟩
      intro hnul
      exact absurd (hname.noControl 0 hnul) (by decide)
  refine ⟨haccepted, acceptsPath_staysBelow haccepted, ?_⟩
  intro sep hsep
  simp [pathNames, hname.splitOnP hsep, hname.nonempty, hname.notSelf]

/-- Every file is named by its field, and its path behind an accepted directory is accepted and is
that of an entry of the directory. -/
theorem uploads_stay_inside (body boundary : Bytes) {file : UploadedFile}
    (hfile : file ∈ (parseMultipart body boundary).files) :
    (file.field ≠ [] ∧ BareName file.filename) ∧
      ∀ d, acceptsPath d = true → acceptsPath (d ++ SLASH :: file.filename) = true ∧
        EntryOf d file.filename (d ++ SLASH :: file.filename) := by
  have hnamed := parseMultipart_named body boundary file hfile
  exact ⟨hnamed, fun d hd => acceptsPath_entry hd hnamed.2⟩

theorem uploads_stay_inside_testForm :
    let file : UploadedFile :=
      ⟨bytes "doc", bytes "note.txt", bytes "text/plain", bytes "FILE-CONTENT-123"⟩
    let path := bytes "uploads/note.txt"
    (file.field ≠ [] ∧ BareName file.filename) ∧ acceptsPath path = true ∧
      EntryOf (bytes "uploads") file.filename path := by
  intro file path
  have hparsed : parseMultipart (encodeForm testBoundary testForm ++ []) testBoundary.text =
      decodedForm testForm := by
    rw [parseMultipart_encodeForm, (multipartLoop_iff testForm_fits {} []).mpr testForm_free]
    rfl
  have hfile : file ∈ (parseMultipart (encodeForm testBoundary testForm ++ [])
      testBoundary.text).files := by
    rw [hparsed]
    decide
  obtain ⟨hnamed, hinside⟩ := uploads_stay_inside _ _ hfile
  exact ⟨hnamed, hinside (bytes "uploads") (by decide)⟩

end Vermell.Http
