import Vermell.Router.StaticMount
import Vermell.Text.Lines

/-! The paths that a static mount gives to `read_bounded`: `serve` once more, with a log. -/
namespace Vermell.Router
open Http Text

/-- A computation with the paths that it gives to `read_bounded`, in order. -/
structure Logged (α : Type) where
  value : α
  opened : List Bytes

namespace Logged
variable {α β : Type}

def readBounded (disk : Disk) (path : Bytes) (maxBytes : ℕ) : Logged ReadResult :=
  ⟨disk.readBounded path maxBytes, [path]⟩

instance : Monad Logged where
  pure a := ⟨a, []⟩
  bind x f := ⟨(f x.value).value, x.opened ++ (f x.value).opened⟩

@[simp] theorem pure_value (a : α) : (pure a : Logged α).value = a := rfl
@[simp] theorem pure_opened (a : α) : (pure a : Logged α).opened = [] := rfl
theorem mk_bind (a : α) (opened : List Bytes) (f : α → Logged β) :
    (⟨a, opened⟩ : Logged α) >>= f = ⟨(f a).value, opened ++ (f a).opened⟩ := rfl
@[simp] theorem bind_value (x : Logged α) (f : α → Logged β) :
    (x >>= f).value = (f x.value).value := rfl
@[simp] theorem bind_opened (x : Logged α) (f : α → Logged β) :
    (x >>= f).opened = x.opened ++ (f x.value).opened := rfl

end Logged

namespace StaticMount
variable (disk : Disk) (m : StaticMount)

def serveFileLogged (full ifNoneMatch : Bytes) (missing : Logged WireResponse) :
    Logged WireResponse := do
  let read ← Logged.readBounded disk full m.options.maxFileBytes
  match read.err with
  | .notFound => missing
  | .forbidden => pure forbidden
  | .tooLarge => pure (respond 413 (bytes "Vermell: file too large") (bytes "text/plain") [] [])
  | .ioError => pure (respond 500 (bytes "Vermell: internal error") (bytes "text/plain") [] [])
  | .ok =>
    if m.options.cache then
      let etag := match disk.regular full with
        | some (size, mtime) => makeEtag size mtime
        | none => []
      if etag ≠ [] ∧ etagMatches ifNoneMatch etag then
        pure (respond 304 [] (mimeOf full) m.cacheControlHeader etag)
      else pure (respond 200 read.data (mimeOf full) m.cacheControlHeader etag)
    else pure (respond 200 read.data (mimeOf full) m.cacheControlHeader [])

def serveIndexLogged (ifNoneMatch : Bytes) : Logged WireResponse :=
  if !disk.isWithin m.root (m.full m.options.index) then pure forbidden
  else m.serveFileLogged disk (m.full m.options.index) ifNoneMatch (pure notFound)

def servePathLogged (full ifNoneMatch : Bytes) : Logged WireResponse :=
  m.serveFileLogged disk full ifNoneMatch
    (if m.options.spa then m.serveIndexLogged disk ifNoneMatch else pure notFound)

/-- `serve` with its log. -/
def serveLogged (path method ifNoneMatch : Bytes) : Logged (Option WireResponse) :=
  if method ≠ bytes "GET" ∧ method ≠ bytes "HEAD" then pure none
  else if !m.underMount (percentDecode path) then pure none
  else
    let rel := m.relative (percentDecode path)
    if rel.contains 0 || hasParentSegment rel then pure (some forbidden)
    else if !disk.isWithin m.root (m.target disk rel) then pure (some forbidden)
    else do
      let response ← m.servePathLogged disk (m.target disk rel) ifNoneMatch
      return some response

/-- A path below the directory of the mount, none of whose components leads up. A NUL in it is the
index's. -/
def Below (path : Bytes) : Prop :=
  ∃ rest, path = withSlash m.root ++ rest ∧ [DOT, DOT] ∉ rest.splitOn SLASH ∧
    (0 ∈ rest → 0 ∈ m.options.index)

/-- The log changes no answer: first one file, then the index, and the request. -/
theorem serveFileLogged_value (full ifNoneMatch : Bytes) (missing : Logged WireResponse) :
    (m.serveFileLogged disk full ifNoneMatch missing).value =
      m.serveFile disk full ifNoneMatch missing.value := by
  unfold serveFileLogged serveFile
  simp only [Logged.bind_value, Logged.readBounded]
  cases (disk.readBounded full m.options.maxFileBytes).err with
  | ok =>
    dsimp only
    rw [apply_ite Logged.value, apply_ite Logged.value]
    rfl
  | notFound => rfl
  | forbidden => rfl
  | tooLarge => rfl
  | ioError => rfl

theorem serveIndexLogged_value (ifNoneMatch : Bytes) :
    (m.serveIndexLogged disk ifNoneMatch).value = m.serveIndex disk ifNoneMatch := by
  unfold serveIndexLogged serveIndex
  rw [apply_ite Logged.value, serveFileLogged_value]
  rfl

theorem servePathLogged_value (full ifNoneMatch : Bytes) :
    (m.servePathLogged disk full ifNoneMatch).value = m.servePath disk full ifNoneMatch := by
  unfold servePathLogged servePath
  rw [serveFileLogged_value, apply_ite Logged.value, serveIndexLogged_value]
  rfl

theorem serveLogged_value (path method ifNoneMatch : Bytes) :
    (m.serveLogged disk path method ifNoneMatch).value =
      m.serve disk path method ifNoneMatch := by
  unfold serveLogged serve
  simp only [apply_ite Logged.value, Logged.bind_value, Logged.pure_value, servePathLogged_value]

/-- Two disks that differ only in files outside a log. -/
structure Agree (disk disk' : Disk) (opened : List Bytes) : Prop where
  isDirectory : disk'.isDirectory = disk.isDirectory
  regular : disk'.regular = disk.regular
  isWithin : disk'.isWithin = disk.isWithin
  readBounded : ∀ path ∈ opened, disk'.readBounded path = disk.readBounded path

theorem Agree.mono {disk disk' : Disk} {opened opened' : List Bytes} (h : Agree disk disk' opened)
    (hsubset : opened' ⊆ opened) : Agree disk disk' opened' where
  isDirectory := h.isDirectory
  regular := h.regular
  isWithin := h.isWithin
  readBounded path hpath := h.readBounded path (hsubset hpath)

theorem serveFileLogged_agree {disk disk' : Disk} {full ifNoneMatch : Bytes}
    {missing missing' : Logged WireResponse}
    (h : Agree disk disk' (m.serveFileLogged disk full ifNoneMatch missing).opened)
    (hmissing : Agree disk disk' missing.opened → missing' = missing) :
    m.serveFileLogged disk' full ifNoneMatch missing' =
      m.serveFileLogged disk full ifNoneMatch missing := by
  have hread := h.readBounded full List.mem_cons_self
  have hlog : disk'.readBounded full m.options.maxFileBytes =
      disk.readBounded full m.options.maxFileBytes := congrFun hread _
  cases herr : (disk.readBounded full m.options.maxFileBytes).err with
  | notFound =>
    have hsame : missing' = missing := by
      apply hmissing
      refine h.mono ?_
      unfold serveFileLogged
      simp [Logged.readBounded, herr]
    simp only [serveFileLogged, Logged.readBounded, hlog, h.regular, hsame]
  | ok => simp only [serveFileLogged, Logged.readBounded, Logged.mk_bind, hlog, h.regular, herr]
  | forbidden => simp only [serveFileLogged, Logged.readBounded, Logged.mk_bind, hlog, herr]
  | tooLarge => simp only [serveFileLogged, Logged.readBounded, Logged.mk_bind, hlog, herr]
  | ioError => simp only [serveFileLogged, Logged.readBounded, Logged.mk_bind, hlog, herr]

theorem serveIndexLogged_agree {disk disk' : Disk} {ifNoneMatch : Bytes}
    (h : Agree disk disk' (m.serveIndexLogged disk ifNoneMatch).opened) :
    m.serveIndexLogged disk' ifNoneMatch = m.serveIndexLogged disk ifNoneMatch := by
  unfold serveIndexLogged at h ⊢
  rw [h.isWithin]
  split_ifs with hjail
  · rfl
  · rw [if_neg hjail] at h
    exact m.serveFileLogged_agree h fun _ => rfl

theorem servePathLogged_agree {disk disk' : Disk} {full ifNoneMatch : Bytes}
    (h : Agree disk disk' (m.servePathLogged disk full ifNoneMatch).opened) :
    m.servePathLogged disk' full ifNoneMatch = m.servePathLogged disk full ifNoneMatch := by
  apply m.serveFileLogged_agree h
  intro hmissing
  split_ifs with hspa
  · rw [if_pos hspa] at hmissing
    exact m.serveIndexLogged_agree hmissing
  · rfl

/-- The log is complete: a file that is not in it makes no difference to the answer. -/
theorem serve_agree {disk disk' : Disk} {path method ifNoneMatch : Bytes}
    (h : Agree disk disk' (m.serveLogged disk path method ifNoneMatch).opened) :
    m.serve disk' path method ifNoneMatch = m.serve disk path method ifNoneMatch := by
  rw [← serveLogged_value, ← serveLogged_value]
  refine congrArg Logged.value ?_
  have htarget (rel : Bytes) : m.target disk' rel = m.target disk rel := by
    unfold target
    rw [h.isDirectory]
  unfold serveLogged at h ⊢
  dsimp only at h ⊢
  rw [htarget, h.isWithin]
  split_ifs with hmethod hmount hrel hjail
  · rfl
  · rfl
  · rfl
  · rfl
  · rw [if_neg hmethod, if_neg hmount, if_neg hrel, if_neg hjail, Logged.bind_opened,
      Logged.pure_opened, List.append_nil] at h
    rw [m.servePathLogged_agree h]

/-- One file is read first; what stands in for a missing one may read on. -/
theorem mem_serveFileLogged {full ifNoneMatch : Bytes} {missing : Logged WireResponse}
    {path : Bytes} (h : path ∈ (m.serveFileLogged disk full ifNoneMatch missing).opened) :
    path = full ∨ path ∈ missing.opened := by
  unfold serveFileLogged at h
  simp only [Logged.bind_opened, Logged.readBounded, List.singleton_append, List.mem_cons] at h
  cases h with
  | inl hfull => exact .inl hfull
  | inr hrest =>
    cases herr : (disk.readBounded full m.options.maxFileBytes).err with
    | notFound =>
      rw [herr] at hrest
      exact .inr hrest
    | ok =>
      rw [herr] at hrest
      dsimp only at hrest
      split_ifs at hrest <;> cases hrest
    | forbidden => rw [herr] at hrest; cases hrest
    | tooLarge => rw [herr] at hrest; cases hrest
    | ioError => rw [herr] at hrest; cases hrest

theorem mem_serveIndexLogged {ifNoneMatch path : Bytes}
    (h : path ∈ (m.serveIndexLogged disk ifNoneMatch).opened) :
    path = m.full m.options.index ∧ disk.isWithin m.root path = true := by
  unfold serveIndexLogged at h
  split_ifs at h with hjail
  · cases h
  · cases m.mem_serveFileLogged disk h with
    | inl hfull => exact ⟨hfull, by simpa [hfull] using hjail⟩
    | inr hnone => cases hnone

/-- What a request reads: the file of its path, behind both checks, or the index of the mount. -/
theorem mem_serveLogged {path method ifNoneMatch opened : Bytes}
    (h : opened ∈ (m.serveLogged disk path method ifNoneMatch).opened) :
    disk.isWithin m.root opened = true ∧
      (opened = m.full m.options.index ∨
        ∃ rel, (∃ decoded, rel = m.relative decoded) ∧ 0 ∉ rel ∧ hasParentSegment rel = false ∧
          opened = m.target disk rel) := by
  unfold serveLogged at h
  dsimp only at h
  split_ifs at h with hmethod hmount hrel hjail
  · cases h
  · cases h
  · cases h
  · cases h
  · rw [Logged.bind_opened, Logged.pure_opened, List.append_nil] at h
    cases m.mem_serveFileLogged disk h with
    | inl hfull =>
      rw [Bool.or_eq_true, not_or, Bool.not_eq_true, Bool.not_eq_true] at hrel
      refine ⟨by simpa [hfull] using hjail, .inr ⟨_, ⟨_, rfl⟩, ?_, hrel.2, hfull⟩⟩
      simpa using hrel.1
    | inr hmissing =>
      split_ifs at hmissing with hspa
      · obtain ⟨hindex, hwithin⟩ := m.mem_serveIndexLogged disk hmissing
        exact ⟨hwithin, .inl hindex⟩
      · cases hmissing

theorem relative_getLast? (decoded : Bytes) : (m.relative decoded).getLast? ≠ some SLASH := by
  intro hlast
  exact absurd (getLast?_rdropWhile _ _ SLASH hlast) (by decide)

theorem withSlash_getLast? (path : Bytes) : (withSlash path).getLast? = some SLASH := by
  unfold withSlash
  split_ifs with hslash
  · exact hslash
  · simp

section
variable (hslash : SLASH ∉ m.options.index) (hdots : m.options.index ≠ [DOT, DOT])
include hslash hdots

/-- The index is a component of its own. -/
theorem dots_not_mem_splitOn_index : [DOT, DOT] ∉ m.options.index.splitOn SLASH := by
  rw [List.splitOn_eq_singleton hslash, List.mem_singleton]
  exact hdots.symm

theorem below_index : m.Below (m.full m.options.index) :=
  ⟨m.options.index, rfl, m.dots_not_mem_splitOn_index hslash hdots, id⟩

/-- The checks on the text below the mount carry over to the file, with its index or without. -/
theorem below_target {rel decoded : Bytes} (hrel : rel = m.relative decoded) (hnul : 0 ∉ rel)
    (hparent : hasParentSegment rel = false) : m.Below (m.target disk rel) := by
  have hcomponents : [DOT, DOT] ∉ rel.splitOn SLASH := by
    simpa [hasParentSegment] using hparent
  unfold target
  split_ifs with hindex
  · cases hempty : rel with
    | nil =>
      have hfull : withSlash (m.full []) = withSlash m.root := by
        unfold full
        rw [List.append_nil, withSlash, if_pos (withSlash_getLast? m.root)]
      rw [hfull]
      exact m.below_index hslash hdots
    | cons c s =>
      rw [← hempty]
      have hlast : (m.full rel).getLast? ≠ some SLASH := by
        unfold full
        rw [List.getLast?_append_of_ne_nil _ (by simp [hempty]), hrel]
        exact m.relative_getLast? decoded
      refine ⟨rel ++ SLASH :: m.options.index, ?_, ?_, ?_⟩
      · rw [withSlash, if_neg hlast, full]
        simp
      · rw [List.splitOn_append_cons_self, List.mem_append, not_or]
        exact ⟨hcomponents, m.dots_not_mem_splitOn_index hslash hdots⟩
      · intro hmem
        rw [List.mem_append, List.mem_cons] at hmem
        cases hmem with
        | inl hin => exact absurd hin hnul
        | inr hin => exact hin.resolve_left (by decide)
  · exact ⟨rel, rfl, hcomponents, fun hmem => absurd hmem hnul⟩

end

/-- A path that the mount does not answer for. -/
theorem not_of_underMount {decoded : Bytes} (h : m.underMount decoded = false) :
    m.mount ≠ [SLASH] ∧ decoded ≠ m.mount ∧ ¬∃ rest, decoded = m.mount ++ SLASH :: rest := by
  simp only [underMount, Bool.or_eq_false_iff] at h
  obtain ⟨⟨hroot, hself⟩, hbelow⟩ := h
  refine ⟨by simpa using hroot, by simpa using hself, ?_⟩
  rintro ⟨rest, rfl⟩
  simp at hbelow

theorem serve_eq_none {path method ifNoneMatch : Bytes}
    (h : m.serve disk path method ifNoneMatch = none) :
    (method ≠ bytes "GET" ∧ method ≠ bytes "HEAD") ∨ m.underMount (percentDecode path) = false := by
  unfold serve at h
  dsimp only at h
  split_ifs at h with hmethod hmount
  · exact .inl hmethod
  · exact .inr (by simpa using hmount)

/-- Every path that a request makes a mount read is accepted by `is_within` and stands below the
directory, and a request is left to others only for its method or for a path outside the mount. No
path is outside the mount `/`. -/
theorem serve_jailed (hslash : SLASH ∉ m.options.index) (hdots : m.options.index ≠ [DOT, DOT])
    (path method ifNoneMatch : Bytes) :
    (m.serveLogged disk path method ifNoneMatch).value = m.serve disk path method ifNoneMatch ∧
      (∀ opened ∈ (m.serveLogged disk path method ifNoneMatch).opened,
        m.Below opened ∧ disk.isWithin m.root opened = true) ∧
      (m.serve disk path method ifNoneMatch = none →
        (method ≠ bytes "GET" ∧ method ≠ bytes "HEAD") ∨
          m.mount ≠ [SLASH] ∧ percentDecode path ≠ m.mount ∧
            ¬∃ rest, percentDecode path = m.mount ++ SLASH :: rest) := by
  refine ⟨m.serveLogged_value disk path method ifNoneMatch, ?_, ?_⟩
  · intro opened hopened
    obtain ⟨hwithin, hfile⟩ := m.mem_serveLogged disk hopened
    refine ⟨?_, hwithin⟩
    cases hfile with
    | inl hindex => exact hindex ▸ m.below_index hslash hdots
    | inr hpath =>
      obtain ⟨rel, ⟨decoded, hrel⟩, hnul, hparent, rfl⟩ := hpath
      exact m.below_target disk hslash hdots hrel hnul hparent
  · intro hnone
    exact (m.serve_eq_none disk hnone).imp_right m.not_of_underMount

/-- A mount whose index name ends in a NUL. -/
def nulIndexMount : StaticMount :=
  StaticMount.make (bytes "/static") (bytes "pub") { index := bytes "i" ++ [0] }

/-- The check for a NUL is made on the path of the request alone. -/
theorem serve_nul_index :
    SLASH ∉ nulIndexMount.options.index ∧ ¬[DOT, DOT] <:+: nulIndexMount.options.index ∧
      (nulIndexMount.serveLogged emptyDisk (bytes "/static") (bytes "GET") []).opened =
        [bytes "pub/i" ++ [0]] ∧ (0 : UInt8) ∈ bytes "pub/i" ++ [0] := by
  decide +kernel

theorem serve_jailed_index :
    (nulIndexMount.serveLogged emptyDisk (bytes "/static/a%2f") (bytes "GET") []).value =
        nulIndexMount.serve emptyDisk (bytes "/static/a%2f") (bytes "GET") [] ∧
      (∀ opened ∈ (nulIndexMount.serveLogged emptyDisk (bytes "/static/a%2f") (bytes "GET")
          []).opened,
        nulIndexMount.Below opened ∧ emptyDisk.isWithin nulIndexMount.root opened = true) ∧
      (nulIndexMount.serve emptyDisk (bytes "/static/a%2f") (bytes "GET") [] = none →
        (bytes "GET" ≠ bytes "GET" ∧ bytes "GET" ≠ bytes "HEAD") ∨
          nulIndexMount.mount ≠ [SLASH] ∧
            percentDecode (bytes "/static/a%2f") ≠ nulIndexMount.mount ∧
            ¬∃ rest, percentDecode (bytes "/static/a%2f") = nulIndexMount.mount ++ SLASH :: rest) :=
  nulIndexMount.serve_jailed emptyDisk (by decide) (by decide) _ _ _

end StaticMount
end Vermell.Router
