import Vermell.Router.Compose
import Vermell.Router.Jail
import Vermell.Router.Resolution

/-! The files of a whole site: what the handlers read through `readFile`, `file`, `compose` and
`render`, and what the mounts read. All of it stands inside the render root or inside the directory
of a mount, so the files elsewhere make no difference to any response. -/
namespace Vermell.Router
open Http Text
open StaticMount (Agree)

/-- `utility_t::toInt`: the `int` that the whole text is, and 0 for any other text. -/
def toInt (data : Bytes) : ℤ :=
  let digits := if data.head? = some MINUS then data.tail else data
  let v : ℤ := if data.head? = some MINUS then -(decimal digits : ℤ) else decimal digits
  if digits = [] ∨ ¬digits.all isDigit ∨ v < -2^31 ∨ 2^31 ≤ v then 0 else v

section
variable (disk : Disk) (sec : RenderSecurity)

/-- `BasicRead::processing` -/
def basicRead (path : Bytes) : Logged (Bytes × Bytes) :=
  if !disk.isWithin (effectiveRoot sec) path then pure (noPath path, bytes "403")
  else do
    let read ← Logged.readBounded disk path sec.maxFileBytes
    match read.err with
    | .ok => pure (read.data, bytes "200")
    | .notFound => pure (noPath path, bytes "404")
    | .tooLarge => pure (bytes "Vermell: the requested file exceeds the allowed size", bytes "413")
    | .forbidden => pure (noPath path, bytes "403")
    | .ioError => pure (bytes "Vermell: internal error while reading the file", bytes "500")

/-- `render`, with a log. -/
def renderLogged (vars : Variables) (path : Bytes) : Logged Bytes :=
  if !disk.isWithin (effectiveRoot sec) path then pure (noFile path)
  else do
    let read ← Logged.readBounded disk path sec.maxFileBytes
    if read.err ≠ .ok then pure (noFile path) else pure (renderBody vars read.data)

theorem renderLogged_value (vars : Variables) (path : Bytes) :
    (renderLogged disk sec vars path).value = render disk sec vars path := by
  unfold renderLogged render
  simp only [apply_ite Logged.value, Logged.bind_value, Logged.pure_value]
  rfl

end

/-- What a handler may call, the calls that read files among it. `readFileAs` is `readFile` with a
type; the variables of `render` are those that its callback sets. -/
inductive FileCall
  | plain (call : Query.Call)
  | readFileAs (path type : Bytes)
  | readFile (path : Bytes)
  | file (path : Bytes)
  | compose (path : Bytes) (reserve : ℤ)
  | render (path : Bytes) (vars : Variables)

namespace FileCall

/-- The path that a call names. -/
def path? : FileCall → Option Bytes
  | .plain _ => none
  | .readFileAs path _ => some path
  | .readFile path => some path
  | .file path => some path
  | .compose path _ => some path
  | .render path _ => some path

variable (disk : Disk) (sec : RenderSecurity)

/-- The answer with the content and the status that the readers found. -/
def found : FileCall → Logged Query.Call
  | .plain call => pure call
  | .readFileAs path type => do
    let (data, status) ← basicRead disk sec path
    return .file data type (toInt status)
  | .readFile path => do
    let (data, status) ← basicRead disk sec path
    return .file data (mimeOf path) (toInt status)
  | .file path => do
    let (data, status) ← basicRead disk sec path
    return .file data (mimeOf path) (toInt status)
  | .compose path reserve =>
    let c := processing disk sec path reserve
    ⟨.file c.page (mimeOf path) (toInt c.status), c.opened⟩
  | .render path vars => do
    let page ← renderLogged disk sec vars path
    return .file page (mimeOf path) 200

end FileCall

/-- A handler that reaches files through its query. Its paths hold no NUL. -/
structure FileHandler where
  run : Message → List (Bytes × Bytes) → Query → List FileCall × Ending
  plain : ∀ message params q, ∀ call ∈ (run message params q).1, ∀ path ∈ call.path?, 0 ∉ path

def FileHandler.middleware (disk : Disk) (sec : RenderSecurity) (f : FileHandler) : Middleware :=
  fun message params q =>
    ⟨(f.run message params q).1.map fun call => (call.found disk sec).value,
      (f.run message params q).2⟩

/-- A route as it is registered, with what its last requests have left of its cooldown. -/
structure Page where
  path : Bytes
  method : Bytes
  handlers : List FileHandler
  cooldown : Cooldown := {}

def Page.route (disk : Disk) (sec : RenderSecurity) (p : Page) : Route :=
  ⟨p.path, p.handlers.map (FileHandler.middleware disk sec), p.method, p.cooldown⟩

/-- The routes and the mounts of a server, in the order of their registration. -/
structure Site where
  pages : List Page
  mounts : List StaticMount

def Site.tables (disk : Disk) (sec : RenderSecurity) (s : Site) : Tables :=
  registered (s.pages.map (Page.route disk sec)) s.mounts

section
variable {disk disk' : Disk} {sec : RenderSecurity}

theorem basicRead_agree {path : Bytes} (h : Agree disk disk' (basicRead disk sec path).opened) :
    basicRead disk' sec path = basicRead disk sec path := by
  unfold basicRead at h ⊢
  rw [h.isWithin]
  split_ifs with hjail
  · rfl
  · rw [if_neg hjail] at h
    have hread := h.readBounded path List.mem_cons_self
    simp only [Logged.readBounded, hread]

theorem renderLogged_agree {vars : Variables} {path : Bytes}
    (h : Agree disk disk' (renderLogged disk sec vars path).opened) :
    renderLogged disk' sec vars path = renderLogged disk sec vars path := by
  unfold renderLogged at h ⊢
  rw [h.isWithin]
  split_ifs with hjail
  · rfl
  · rw [if_neg hjail] at h
    have hread := h.readBounded path List.mem_cons_self
    simp only [Logged.readBounded, hread]

theorem tratament_agree {folder body : Bytes}
    (h : Agree disk disk' (tratament disk sec folder body).opened) :
    tratament disk' sec folder body = tratament disk sec folder body := by
  unfold tratament at h ⊢
  cases hmarker : findTag body with
  | absent => rfl
  | unclosed => rfl
  | found opening closing =>
    rw [hmarker] at h
    dsimp only at h ⊢
    rw [h.isWithin]
    split_ifs with hname hjail
    · rfl
    · rfl
    · rw [if_neg hname, if_neg hjail] at h
      have hread := h.readBounded (folder ++ SLASH ::
        (body.drop (opening + 2)).take (closing - opening - 2)) (by
          cases (disk.readBounded (folder ++ SLASH ::
            (body.drop (opening + 2)).take (closing - opening - 2)) sec.maxFileBytes).err <;>
            exact List.mem_cons_self)
      rw [hread]

/-- What a pass opens is in the log of the composition, whatever its tag. -/
theorem opened_tratament_subset (folder : Bytes) (n : ℕ) (body : Bytes) :
    (tratament disk sec folder body).opened ⊆
      (composePasses disk sec folder (n + 1) body).opened := by
  rw [composePasses]
  cases (tratament disk sec folder body).tag with
  | ok =>
    dsimp only
    split_ifs
    · exact List.Subset.refl _
    · exact List.subset_append_left _ _
  | done => exact List.Subset.refl _
  | unclosed => exact List.Subset.refl _
  | badName => exact List.Subset.refl _
  | tooLarge => exact List.Subset.refl _
  | notFound => exact List.Subset.refl _
  | ioError => exact List.Subset.refl _

theorem composePasses_agree {folder : Bytes} {n : ℕ} {body : Bytes}
    (h : Agree disk disk' (composePasses disk sec folder n body).opened) :
    composePasses disk' sec folder n body = composePasses disk sec folder n body := by
  induction n generalizing body with
  | zero => rfl
  | succ n ih =>
    have hpass := tratament_agree (h.mono (opened_tratament_subset folder n body))
    rw [composePasses] at h ⊢
    rw [composePasses, hpass]
    cases htag : (tratament disk sec folder body).tag with
    | ok =>
      rw [htag] at h
      dsimp only at h ⊢
      split_ifs with hlarge
      · rfl
      · rw [if_neg hlarge] at h
        rw [ih (h.mono (List.subset_append_right _ _))]
    | done => rfl
    | unclosed => rfl
    | badName => rfl
    | tooLarge => rfl
    | notFound => rfl
    | ioError => rfl

theorem processing_agree {path : Bytes} {reserve : ℤ}
    (h : Agree disk disk' (processing disk sec path reserve).opened) :
    processing disk' sec path reserve = processing disk sec path reserve := by
  unfold processing at h ⊢
  dsimp only at h ⊢
  rw [h.isWithin]
  by_cases hjail : (!disk.isWithin (effectiveRoot sec) path) = true
  · rw [if_pos hjail, if_pos hjail]
  · rw [if_neg hjail] at h ⊢
    rw [if_neg hjail]
    by_cases hread : (disk.readBounded path sec.maxFileBytes).err ≠ .ok
    · rw [if_pos hread] at h ⊢
      rw [h.readBounded path List.mem_cons_self, if_pos hread]
    · rw [if_neg hread] at h ⊢
      rw [h.readBounded path List.mem_cons_self, if_neg hread,
        composePasses_agree (h.mono (List.subset_cons_self path _))]

/-- The log of a call is complete. -/
theorem FileCall.found_agree {call : FileCall}
    (h : Agree disk disk' (call.found disk sec).opened) :
    call.found disk' sec = call.found disk sec := by
  cases call with
  | plain call => rfl
  | readFileAs path type =>
    rw [FileCall.found] at h ⊢
    rw [FileCall.found, basicRead_agree (h.mono (List.subset_append_left _ _))]
  | readFile path =>
    rw [FileCall.found] at h ⊢
    rw [FileCall.found, basicRead_agree (h.mono (List.subset_append_left _ _))]
  | file path =>
    rw [FileCall.found] at h ⊢
    rw [FileCall.found, basicRead_agree (h.mono (List.subset_append_left _ _))]
  | compose path reserve =>
    rw [FileCall.found] at h ⊢
    rw [FileCall.found, processing_agree h]
  | render path vars =>
    rw [FileCall.found] at h ⊢
    rw [FileCall.found, renderLogged_agree (h.mono (List.subset_append_left _ _))]

/-- A pass opens modules that `is_within` accepts for the folder. -/
theorem tratament_within {folder body opened : Bytes}
    (h : opened ∈ (tratament disk sec folder body).opened) :
    disk.isWithin folder opened = true := by
  unfold tratament at h
  cases hmarker : findTag body with
  | absent =>
    rw [hmarker] at h
    cases h
  | unclosed =>
    rw [hmarker] at h
    cases h
  | found opening closing =>
    rw [hmarker] at h
    dsimp only at h
    split_ifs at h with hname hjail
    · cases h
    · cases h
    · have htarget : opened = folder ++ SLASH ::
          (body.drop (opening + 2)).take (closing - opening - 2) := by
        revert h
        cases (disk.readBounded (folder ++ SLASH ::
          (body.drop (opening + 2)).take (closing - opening - 2)) sec.maxFileBytes).err <;>
          exact List.mem_singleton.mp
      rw [htarget]
      simpa using hjail

theorem composePasses_opened {folder : Bytes} {n : ℕ} {body opened : Bytes}
    (h : opened ∈ (composePasses disk sec folder n body).opened) :
    ModuleOf folder opened ∧ disk.isWithin folder opened = true := by
  induction n generalizing body with
  | zero => cases h
  | succ n ih =>
    have hpass (hmem : opened ∈ (tratament disk sec folder body).opened) :
        ModuleOf folder opened ∧ disk.isWithin folder opened = true :=
      ⟨(tratament_opened disk sec folder body).2 opened hmem, tratament_within hmem⟩
    rw [composePasses] at h
    cases htag : (tratament disk sec folder body).tag with
    | ok =>
      rw [htag] at h
      dsimp only at h
      split_ifs at h with hlarge
      · exact hpass h
      · exact (List.mem_append.mp h).elim hpass ih
    | done => exact hpass (by simpa only [htag] using h)
    | unclosed => exact hpass (by simpa only [htag] using h)
    | badName => exact hpass (by simpa only [htag] using h)
    | tooLarge => exact hpass (by simpa only [htag] using h)
    | notFound => exact hpass (by simpa only [htag] using h)
    | ioError => exact hpass (by simpa only [htag] using h)

end

theorem nul_of_cString {path : Bytes} (h : cString path = path) : (0 : UInt8) ∉ path := by
  intro hnul
  have hne := List.takeWhile_eq_self_iff.mp h 0 hnul
  simp at hne

/-- What the operating system promises: `open` follows no link at the end of a path, so a regular
file that it opens is an entry of the folder that the path names; and the root is no such file. -/
structure FileSystem.Layout (fs : FileSystem) (root : Bytes) : Prop where
  entry : ∀ path file size, 0 ∉ path → fs.openFile path = some file →
    file.stat = some (true, size) → ∃ folder name, fs.canonical (folderBase path) = some folder ∧
      fs.canonical path = some (folder ++ [name])
  root : ∀ path file size, 0 ∉ path → fs.openFile path = some file →
    file.stat = some (true, size) → fs.canonical path ≠ fs.canonical root

section
variable {fs : FileSystem} {sec : RenderSecurity}

theorem FileSystem.regular_of_readBounded {path : Bytes} {maxBytes : ℕ}
    (h : (fs.readBounded path maxBytes).err = .ok) :
    ∃ file size, fs.openFile (cString path) = some file ∧ file.stat = some (true, size) := by
  unfold FileSystem.readBounded at h
  cases hopen : fs.openFile (cString path) with
  | none =>
    rw [hopen] at h
    cases h
  | some file =>
    rw [hopen] at h
    obtain ⟨stat, reads⟩ := file
    cases stat with
    | none => cases h
    | some found =>
      obtain ⟨isRegular, size⟩ := found
      cases isRegular with
      | false => cases h
      | true => exact ⟨_, size, rfl, rfl⟩

theorem FileSystem.isWithin_iff {base target : Bytes} : fs.isWithin base target = true ↔
    base ≠ [] ∧ target ≠ [] ∧ ∃ cb ct, fs.canonical base = some cb ∧
      fs.canonical target = some ct ∧ cb ≠ [] ∧ ct ≠ [] ∧ cb <+: ct := by
  unfold FileSystem.isWithin
  split_ifs with hempty
  · simp only [false_iff]
    rintro ⟨hbase, htarget, -⟩
    exact hempty.elim hbase htarget
  · rw [not_or] at hempty
    cases fs.canonical base with
    | none => simp
    | some cb =>
      cases fs.canonical target with
      | none => simp
      | some ct => simp [hempty.1, hempty.2, and_assoc]

/-- A module of a template inside the root is inside the root. -/
theorem FileSystem.Layout.isWithin_module {root path opened : Bytes} {maxBytes : ℕ}
    (h : fs.Layout root) (hnul : 0 ∉ path) (hpath : fs.isWithin root path = true)
    (hread : (fs.readBounded path maxBytes).err = .ok)
    (hopened : fs.isWithin (folderBase path) opened = true) :
    fs.isWithin root opened = true := by
  obtain ⟨file, size, hopen, hstat⟩ := FileSystem.regular_of_readBounded hread
  rw [cString_eq_self hnul] at hopen
  obtain ⟨folder, name, hfolder, hcanonical⟩ := h.entry path file size hnul hopen hstat
  have hroot := h.root path file size hnul hopen hstat
  obtain ⟨hbase, -, cb, ct, hcb, hct, hne, -, hprefix⟩ := FileSystem.isWithin_iff.mp hpath
  obtain ⟨-, htarget, cf, co, hcf, hco, -, hco_ne, hinner⟩ := FileSystem.isWithin_iff.mp hopened
  obtain rfl : cf = folder := Option.some.inj (hcf.symm.trans hfolder)
  obtain rfl : ct = cf ++ [name] := Option.some.inj (hct.symm.trans hcanonical)
  refine FileSystem.isWithin_iff.mpr ⟨hbase, htarget, cb, co, hcb, hco, hne, hco_ne, ?_⟩
  rcases List.prefix_concat_iff.mp hprefix with rfl | hfront
  · exact absurd (hct.trans hcb.symm) hroot
  · exact hfront.trans hinner

/-- Every file that a call reads is inside the render root, and `open` gets its path whole. -/
theorem FileCall.opened_within (h : fs.Layout (effectiveRoot sec)) {call : FileCall}
    (hnul : ∀ path ∈ call.path?, 0 ∉ path) {opened : Bytes}
    (hopened : opened ∈ (call.found fs.disk sec).opened) :
    fs.isWithin (effectiveRoot sec) opened = true ∧ 0 ∉ opened := by
  have hbasic {path : Bytes} (hpath : 0 ∉ path)
      (hmem : opened ∈ (basicRead fs.disk sec path).opened) :
      fs.isWithin (effectiveRoot sec) opened = true ∧ 0 ∉ opened := by
    unfold basicRead at hmem
    split_ifs at hmem with hjail
    · cases hmem
    · have hself : opened = path := by
        simp only [Logged.bind_opened, Logged.readBounded] at hmem
        revert hmem
        cases (fs.disk.readBounded path sec.maxFileBytes).err <;> simp
      have hwithin : fs.disk.isWithin (effectiveRoot sec) path = true := by simpa using hjail
      rw [hself]
      exact ⟨hwithin, hpath⟩
  cases call with
  | plain call => cases hopened
  | readFileAs path type =>
    rw [FileCall.found, Logged.bind_opened, Logged.pure_opened, List.append_nil] at hopened
    exact hbasic (hnul path rfl) hopened
  | readFile path =>
    rw [FileCall.found, Logged.bind_opened, Logged.pure_opened, List.append_nil] at hopened
    exact hbasic (hnul path rfl) hopened
  | file path =>
    rw [FileCall.found, Logged.bind_opened, Logged.pure_opened, List.append_nil] at hopened
    exact hbasic (hnul path rfl) hopened
  | compose path reserve =>
    have hpath := hnul path rfl
    rw [FileCall.found] at hopened
    dsimp only at hopened
    unfold processing at hopened
    dsimp only at hopened
    split_ifs at hopened with hjail hread
    · cases hopened
    · have hwithin : fs.disk.isWithin (effectiveRoot sec) path = true := by simpa using hjail
      rw [List.mem_singleton.mp hopened]
      exact ⟨hwithin, hpath⟩
    · have hwithin : fs.disk.isWithin (effectiveRoot sec) path = true := by simpa using hjail
      cases List.mem_cons.mp hopened with
      | inl hself =>
        rw [hself]
        exact ⟨hwithin, hpath⟩
      | inr hmodule =>
        obtain ⟨hname, hfolder⟩ := composePasses_opened hmodule
        exact ⟨h.isWithin_module hpath hwithin (not_not.mp hread) hfolder,
          nul_of_cString (hname.cString_eq hpath)⟩
  | render path vars =>
    rw [FileCall.found, Logged.bind_opened, Logged.pure_opened, List.append_nil] at hopened
    unfold renderLogged at hopened
    split_ifs at hopened with hjail
    · cases hopened
    · have hself : opened = path := by
        simp only [Logged.bind_opened, Logged.readBounded, apply_ite Logged.opened,
          Logged.pure_opened, ite_self, List.append_nil] at hopened
        exact List.mem_singleton.mp hopened
      have hwithin : fs.disk.isWithin (effectiveRoot sec) path = true := by simpa using hjail
      rw [hself]
      exact ⟨hwithin, hnul path rfl⟩

end

/-- Two file systems of the same layout that hold the same files where `inside` says so. -/
structure FileSystem.SameInside (fs fs' : FileSystem) (inside : Bytes → Prop) : Prop where
  isDirectory : fs'.isDirectory = fs.isDirectory
  regular : fs'.regular = fs.regular
  canonical : fs'.canonical = fs.canonical
  openFile : ∀ path, 0 ∉ path → inside path → fs'.openFile path = fs.openFile path

theorem FileSystem.SameInside.agree {fs fs' : FileSystem} {inside : Bytes → Prop}
    (h : fs.SameInside fs' inside) {opened : List Bytes}
    (hopened : ∀ path ∈ opened, inside path ∧ 0 ∉ path) : Agree fs.disk fs'.disk opened where
  isDirectory := h.isDirectory
  regular := h.regular
  isWithin := by
    funext base target
    change fs'.isWithin base target = fs.isWithin base target
    rw [FileSystem.isWithin, FileSystem.isWithin, h.canonical]
  readBounded path hpath := by
    obtain ⟨hinside, hnul⟩ := hopened path hpath
    funext maxBytes
    change fs'.readBounded path maxBytes = fs.readBounded path maxBytes
    rw [FileSystem.readBounded, FileSystem.readBounded, cString_eq_self hnul,
      h.openFile path hnul hinside]

/-- A path inside the render root or inside the directory of a mount. -/
def Site.Inside (s : Site) (fs : FileSystem) (sec : RenderSecurity) (path : Bytes) : Prop :=
  ∃ root ∈ effectiveRoot sec :: s.mounts.map StaticMount.root, fs.isWithin root path = true

section
variable {fs fs' : FileSystem} {sec : RenderSecurity} {site : Site}

theorem FileHandler.middleware_eq (h : fs.Layout (effectiveRoot sec))
    (hsame : fs.SameInside fs' (site.Inside fs sec)) (f : FileHandler) :
    f.middleware fs'.disk sec = f.middleware fs.disk sec := by
  funext message params q
  unfold FileHandler.middleware
  congr 1
  apply List.map_congr_left
  intro call hcall
  apply congrArg Logged.value
  apply FileCall.found_agree
  apply hsame.agree
  intro path hpath
  obtain ⟨hwithin, hnul⟩ := FileCall.opened_within h (f.plain message params q call hcall) hpath
  exact ⟨⟨effectiveRoot sec, List.mem_cons_self, hwithin⟩, hnul⟩

theorem Site.tables_eq (h : fs.Layout (effectiveRoot sec))
    (hsame : fs.SameInside fs' (site.Inside fs sec)) :
    site.tables fs'.disk sec = site.tables fs.disk sec := by
  have hroute : Page.route fs'.disk sec = Page.route fs.disk sec := by
    funext p
    unfold Page.route
    congr 2
    funext f
    exact FileHandler.middleware_eq h hsame f
  rw [Site.tables, Site.tables, hroute]

theorem Site.tables_mounts (disk : Disk) (sec : RenderSecurity) (s : Site) :
    (s.tables disk sec).mounts = s.mounts := by
  rw [Site.tables, registered_eq]

/-- The paths that a mount reads are inside its directory. -/
theorem StaticMount.serve_eq {m : StaticMount} (hm : m ∈ site.mounts) (hdir : 0 ∉ m.dir)
    (hindex : 0 ∉ m.options.index) (hsame : fs.SameInside fs' (site.Inside fs sec))
    (path method ifNoneMatch : Bytes) :
    m.serve fs'.disk path method ifNoneMatch = m.serve fs.disk path method ifNoneMatch := by
  apply m.serve_agree
  apply hsame.agree
  intro opened hopened
  obtain ⟨hwithin, hform⟩ := m.mem_serveLogged fs.disk hopened
  have hslash {rest : Bytes} (hrest : 0 ∉ rest) : 0 ∉ withSlash rest := by
    unfold withSlash
    split_ifs
    · exact hrest
    · simpa using ⟨hrest, by decide⟩
  have hroot : 0 ∉ m.root := by
    unfold root
    split_ifs
    · decide
    · exact hdir
  have hfull {rest : Bytes} (hrest : 0 ∉ rest) : 0 ∉ m.full rest := by
    unfold full
    rw [List.mem_append, not_or]
    exact ⟨hslash hroot, hrest⟩
  refine ⟨⟨m.root, List.mem_cons_of_mem _ (List.mem_map_of_mem hm), hwithin⟩, ?_⟩
  rcases hform with rfl | ⟨rel, -, hrel, -, rfl⟩
  · exact hfull hindex
  · unfold target
    split_ifs
    · rw [List.mem_append, not_or]
      exact ⟨hslash (hfull hrel), hindex⟩
    · exact hfull hrel

end

theorem mem_of_bestMount {path : Bytes} {mounts : List StaticMount} {m : StaticMount}
    (h : bestMount path mounts = some m) : m ∈ mounts := by
  rw [bestMount_eq, longestMount] at h
  exact List.mem_of_mem_filter (List.argmax_mem h)

/-- Only the mounts read the disk of the world. -/
theorem executeRoute_disk {disk disk' : Disk} {now finish : ℤ} {t : Tables}
    (h : ∀ m ∈ t.mounts, ∀ path method ifNoneMatch,
      m.serve disk' path method ifNoneMatch = m.serve disk path method ifNoneMatch)
    (allow : Bool) (raw : Bytes) :
    executeRoute ⟨disk', now, finish⟩ t allow raw =
      executeRoute ⟨disk, now, finish⟩ t allow raw := by
  have hpatterns (message : Message) (routes : List PatternRoute) :
      servePatterns ⟨disk', now, finish⟩ message routes =
        servePatterns ⟨disk, now, finish⟩ message routes := by
    induction routes with
    | nil => rfl
    | cons pr rest ih =>
      simp only [servePatterns, ih]
      rfl
  have hroutes (message : Message) : serveRoutes ⟨disk', now, finish⟩ t message =
      serveRoutes ⟨disk, now, finish⟩ t message := by
    unfold serveRoutes
    cases Assoc.get id (routeKey message.path message.method) t.routes with
    | some r => rfl
    | none =>
      simp only [hpatterns]
      split_ifs
      · rfl
      · cases hbest : bestMount message.path t.mounts with
        | none => rfl
        | some m => simp only [h m (mem_of_bestMount hbest)]
  unfold executeRoute
  cases parse raw with
  | none => rfl
  | some message => simp only [serveMessage, hroutes]

/-- The files outside the render root and outside the mounted directories make no difference to any
response: whatever the handlers ask for and whatever the client sends, a server with the same routes
over two file systems that differ only there sends the same bytes. -/
theorem outside_files_unseen (site : Site) (sec : RenderSecurity) (fs fs' : FileSystem)
    (hlayout : fs.Layout (effectiveRoot sec))
    (hmounts : ∀ m ∈ site.mounts, 0 ∉ m.dir ∧ 0 ∉ m.options.index)
    (hsame : fs.SameInside fs' (site.Inside fs sec)) (now finish : ℤ) (allow : Bool)
    (raw : Bytes) :
    executeRoute ⟨fs'.disk, now, finish⟩ (site.tables fs'.disk sec) allow raw =
      executeRoute ⟨fs.disk, now, finish⟩ (site.tables fs.disk sec) allow raw := by
  rw [Site.tables_eq hlayout hsame]
  apply executeRoute_disk
  rw [Site.tables_mounts]
  intro m hm
  exact StaticMount.serve_eq hm (hmounts m hm).1 (hmounts m hm).2 hsame

/-- A template and its module in `www`, and a file elsewhere. -/
def twoFolders (secret : Bytes) : FileSystem where
  isDirectory _ := false
  regular _ := none
  openFile path :=
    if path = bytes "www/a" then some ⟨some (true, 5), [.chunk (bytes "#[m];")]⟩
    else if path = bytes "www/m" then some ⟨some (true, 1), [.chunk (bytes "x")]⟩
    else if path = bytes "etc/s" then some ⟨some (true, secret.length), [.chunk secret]⟩
    else none
  canonical path := some (path.splitOn SLASH)

theorem layout_twoFolders (secret : Bytes) : (twoFolders secret).Layout (bytes "www") where
  entry path file size _ hopen _ := by
    simp only [twoFolders] at hopen
    split_ifs at hopen with ha hm hs
    · exact ⟨[bytes "www"], bytes "a", congrArg some (by rw [ha]; decide),
        congrArg some (by rw [ha]; decide)⟩
    · exact ⟨[bytes "www"], bytes "m", congrArg some (by rw [hm]; decide),
        congrArg some (by rw [hm]; decide)⟩
    · exact ⟨[bytes "etc"], bytes "s", congrArg some (by rw [hs]; decide),
        congrArg some (by rw [hs]; decide)⟩
  root path file size _ hopen _ := by
    simp only [twoFolders] at hopen ⊢
    split_ifs at hopen with ha hm hs
    · rw [ha]
      decide
    · rw [hm]
      decide
    · rw [hs]
      decide

/-- A handler with one call. -/
def FileHandler.only (call : FileCall) (h : ∀ path ∈ call.path?, 0 ∉ path) : FileHandler where
  run _ _ _ := ([call], .returns)
  plain _ _ _ c hc := by
    rw [List.mem_singleton.mp hc]
    exact h

/-- A page that composes the template, and one that asks for the file elsewhere. -/
def twoPages : Site where
  pages := [
    ⟨bytes "/a", bytes "GET", [.only (.compose (bytes "www/a") 2) (by rintro _ ⟨⟩; decide)], {}⟩,
    ⟨bytes "/s", bytes "GET", [.only (.readFile (bytes "etc/s")) (by rintro _ ⟨⟩; decide)], {}⟩]
  mounts := []

theorem outside_files_unseen_elsewhere :
    let sec : RenderSecurity := { root := bytes "www" }
    let raw := bytes "GET /s HTTP/1.1\r\nHost: h\r\n\r\n"
    let one := twoFolders (bytes "one")
    let two := twoFolders (bytes "two")
    executeRoute ⟨two.disk, 0, 0⟩ (twoPages.tables two.disk sec) true raw =
      executeRoute ⟨one.disk, 0, 0⟩ (twoPages.tables one.disk sec) true raw := by
  intro sec raw one two
  apply outside_files_unseen twoPages sec one two (layout_twoFolders _) (by simp [twoPages])
  refine ⟨rfl, rfl, rfl, ?_⟩
  rintro path - ⟨root, hroot, hwithin⟩
  obtain rfl : root = bytes "www" := by simpa [twoPages, effectiveRoot, sec, bytes] using hroot
  have helsewhere : path ≠ bytes "etc/s" := by
    rintro rfl
    exact absurd hwithin (by decide)
  simp only [one, two, twoFolders, if_neg helsewhere]

end Vermell.Router
