import Vermell.Router.EntityTags
import Vermell.Router.Exchange
import Vermell.Runs

/-! A client that keeps a file of a mount with its tag and asks again with `If-None-Match`, while
the files of the mount change under it. -/
namespace Vermell.Router
open Http Text Runs
open Json (COMMA)

/-! The tag of a file names its size and its time. -/

theorem toChars_injective : Function.Injective toChars := by
  intro m n h
  rw [← decimal_toChars m, h, decimal_toChars]

theorem minus_not_mem_toChars (n : ℕ) : MINUS ∉ toChars n :=
  fun h => absurd ((toChars_digits n).2 _ h) (by decide)

/-- A numeral is known by what stands in front of the next dash. -/
theorem toCharsInt_append_inj {a b : ℤ} {s t : Bytes}
    (h : toCharsInt a ++ MINUS :: s = toCharsInt b ++ MINUS :: t) : a = b ∧ s = t := by
  have hnat {m n : ℕ} {s t : Bytes} (h : toChars m ++ MINUS :: s = toChars n ++ MINUS :: t) :
      m = n ∧ s = t := by
    obtain ⟨hchars, hrest⟩ :=
      append_cons_inj (minus_not_mem_toChars m) (minus_not_mem_toChars n) h
    exact ⟨toChars_injective hchars, hrest⟩
  have hsign {m : ℕ} {s t : Bytes} : toChars m ++ s ≠ MINUS :: t := by
    intro heq
    obtain ⟨c, rest, hcons⟩ := List.exists_cons_of_ne_nil (toChars_digits m).1
    rw [hcons] at heq
    have hdash := (List.cons.inj heq).1
    have hmem : c ∈ toChars m := by simp [hcons]
    exact minus_not_mem_toChars m (hdash ▸ hmem)
  unfold toCharsInt at h
  split_ifs at h with ha hb hb
  · obtain ⟨habs, hrest⟩ := hnat (List.cons.inj h).2
    exact ⟨by omega, hrest⟩
  · exact absurd h.symm hsign
  · exact absurd h hsign
  · obtain ⟨habs, hrest⟩ := hnat h
    exact ⟨by omega, hrest⟩

theorem makeEtag_eq (size mtime : ℤ) :
    makeEtag size mtime = QUOTE :: (toCharsInt size ++ MINUS :: (toCharsInt mtime ++ [QUOTE])) := by
  simp [makeEtag, bytes, QUOTE, MINUS]

theorem makeEtag_injective {size mtime size' mtime' : ℤ}
    (h : makeEtag size mtime = makeEtag size' mtime') : (size, mtime) = (size', mtime') := by
  rw [makeEtag_eq, makeEtag_eq] at h
  obtain ⟨hsize, htail⟩ := toCharsInt_append_inj (List.cons.inj h).2
  have htime := List.append_cancel_right htail
  obtain ⟨hmtime, -⟩ := toCharsInt_append_inj (congrArg (· ++ MINUS :: []) htime)
  rw [hsize, hmtime]

theorem etagc_of_digit {c : UInt8} (h : isDigit c = true) : isEtagc c = true := by
  simp only [isDigit, Bool.and_eq_true, decide_eq_true_eq] at h
  have hlow : (0x23 : UInt8) ≤ c := by
    have := h.1
    simp only [UInt8.le_iff_toNat_le] at this ⊢
    exact le_trans (by decide) this
  have hhigh : c ≤ (0x7E : UInt8) := by
    have := h.2
    simp only [UInt8.le_iff_toNat_le] at this ⊢
    exact le_trans this (by decide)
  simp [isEtagc, hlow, hhigh]

theorem etagc_toCharsInt (z : ℤ) : ∀ c ∈ toCharsInt z, isEtagc c = true := by
  have hdigits (n : ℕ) : ∀ c ∈ toChars n, isEtagc c = true :=
    fun c hc => etagc_of_digit ((toChars_digits n).2 c hc)
  unfold toCharsInt
  split_ifs
  · exact List.forall_mem_cons.mpr ⟨by decide, hdigits _⟩
  · exact hdigits _

/-- The tag of a file, as an entity tag. -/
def fileTag (size mtime : ℤ) : EntityTag where
  weak := false
  text := toCharsInt size ++ MINUS :: toCharsInt mtime
  chars := List.forall_mem_append.mpr
    ⟨etagc_toCharsInt size, List.forall_mem_cons.mpr ⟨by decide, etagc_toCharsInt mtime⟩⟩

theorem fileTag_quoted (size mtime : ℤ) : (fileTag size mtime).quoted = makeEtag size mtime := by
  rw [makeEtag_eq, EntityTag.quoted, fileTag, List.append_assoc]
  rfl

/-- The tag of a file matches that of the same size and time only. -/
theorem etagMatches_fileTag (size mtime size' mtime' : ℤ) :
    etagMatches (makeEtag size mtime) (makeEtag size' mtime') = true ↔
      (size, mtime) = (size', mtime') := by
  let v : IfNoneMatch := .list [⟨[], some (fileTag size mtime), [], by simp, by simp⟩]
  have hwrite : v.write = makeEtag size mtime := by
    rw [← fileTag_quoted]
    simp [v, IfNoneMatch.write, ListElement.write, EntityTag.write, fileTag]
  have hcomma : COMMA ∉ (fileTag size mtime).text :=
    fun hmem => (quotedTag_makeEtag size mtime).1
      (fileTag_quoted size mtime ▸ List.mem_cons_of_mem _ (List.mem_append_left _ hmem))
  have hstar : ¬v.HidesStar := by
    rintro ⟨e, he, t, ht, hin⟩
    rw [List.mem_singleton.mp he] at ht
    cases ht
    exact hcomma (hin.subset List.mem_cons_self)
  have hnames : v.Names (makeEtag size' mtime') ↔ makeEtag size mtime = makeEtag size' mtime' := by
    simp [v, IfNoneMatch.Names, fileTag_quoted]
  rw [← hwrite, etagMatches_write (quotedTag_makeEtag size' mtime'), or_iff_left hstar, hnames]
  refine ⟨makeEtag_injective, fun h => ?_⟩
  obtain ⟨rfl, rfl⟩ := Prod.mk.inj h
  rfl

/-- A tag passes a header as it is. -/
theorem plain_makeEtag (size mtime : ℤ) :
    makeEtag size mtime ≠ [] ∧ sanitize (makeEtag size mtime) = makeEtag size mtime ∧
      COLON ∉ makeEtag size mtime ∧ trim (makeEtag size mtime) = makeEtag size mtime := by
  rw [makeEtag_eq]
  have hcolon (z : ℤ) : COLON ∉ toCharsInt z := by
    have hdigits (n : ℕ) : COLON ∉ toChars n :=
      fun h => absurd ((toChars_digits n).2 _ h) (by decide)
    unfold toCharsInt
    split_ifs
    · exact List.not_mem_cons_of_ne_of_not_mem (by decide) (hdigits _)
    · exact hdigits _
  refine ⟨List.cons_ne_nil _ _, ?_, ?_, ?_⟩
  · refine Clean.sanitize (List.forall_mem_cons.mpr ⟨by decide, ?_⟩)
    refine clean_append_iff.mpr ⟨clean_toCharsInt size, List.forall_mem_cons.mpr ⟨by decide, ?_⟩⟩
    exact clean_append_iff.mpr ⟨clean_toCharsInt mtime, List.forall_mem_singleton.mpr (by decide)⟩
  · have hne : COLON ≠ QUOTE ∧ COLON ≠ MINUS := by decide
    simp [hne, hcolon]
  · apply trim_eq_self
    · rintro c ⟨⟩
      decide
    · have hlast : QUOTE :: (toCharsInt size ++ MINUS :: (toCharsInt mtime ++ [QUOTE])) =
          QUOTE :: (toCharsInt size ++ MINUS :: toCharsInt mtime) ++ [QUOTE] := by simp
      rw [hlast, List.getLast?_concat]
      rintro c ⟨⟩
      decide

/-! What a mount has for a path. -/

theorem set_code (r : Response) (name value : Bytes) : (r.set name value).code = r.code := by
  unfold Response.set
  split_ifs <;> rfl

theorem set_body (r : Response) (name value : Bytes) : (r.set name value).body = r.body := by
  unfold Response.set
  split_ifs <;> rfl

section
variable (status : ℤ) (body mime cacheControl etag : Bytes)

theorem staticResponse_code :
    (staticResponse status body mime cacheControl etag).code = status := by
  unfold staticResponse
  simp only
  split_ifs <;> simp [set_code, Response.setBody, Response.type, Response.status]

theorem staticResponse_body : (staticResponse status body mime cacheControl etag).body = body := by
  unfold staticResponse
  simp only
  split_ifs <;> simp [set_body, Response.setBody]

theorem get_set {k name : Bytes} (hname : name ≠ [] ∧ sanitize name = name) (r : Response)
    (value : Bytes) : Assoc.get lower k (r.set name value).headers =
      if lower name = k then some (sanitize value) else Assoc.get lower k r.headers := by
  unfold Response.set
  rw [hname.2, if_neg hname.1]
  simp only [setHeader_eq, Assoc.get_put]

/-- The tag that a client finds in the head. -/
theorem staticResponse_etag : Assoc.get lower (lower (bytes "ETag"))
    (staticResponse status body mime cacheControl etag).fields =
      if etag ≠ [] then some (sanitize etag) else none := by
  have hdefaults (n : ℕ) : Assoc.get lower (lower (bytes "ETag"))
      (Response.frontDefaults ++ Response.backDefaults n) = none := by
    rw [Assoc.get_eq_none_iff, Response.keys_defaults]
    decide
  have htag (r : Response) : Assoc.get lower (lower (bytes "ETag"))
      (r.set (bytes "ETag") etag).headers = some (sanitize etag) := by
    rw [get_set (by decide), if_pos rfl]
  have hother {name : Bytes} (hname : name ≠ [] ∧ sanitize name = name)
      (hkey : lower name ≠ lower (bytes "ETag")) (r : Response) (value : Bytes) :
      Assoc.get lower (lower (bytes "ETag")) (r.set name value).headers =
        Assoc.get lower (lower (bytes "ETag")) r.headers := by
    rw [get_set hname, if_neg hkey]
  have hfresh : Assoc.get lower (lower (bytes "ETag"))
      (((({} : Response).status status).type mime).setBody body).headers = none :=
    hother (by decide) (by decide) (({} : Response).status status) mime
  rw [Response.get_fields, hdefaults, Option.or_none]
  unfold staticResponse
  simp only
  split_ifs
  · exact htag _
  · exact htag _
  · rw [hother (by decide) (by decide), hfresh]
  · exact hfresh

end

/-- The files that a path may stand for: its own, its index, and the index of the mount. -/
def StaticMount.candidates (m : StaticMount) (path : Bytes) : List Bytes :=
  let rel := m.relative (percentDecode path)
  [m.full rel, StaticMount.withSlash (m.full rel) ++ m.options.index, m.full m.options.index]

/-- A page, a file without a tag, or a file with its size and time. -/
inductive Found
  | page (r : Response)
  | untagged (data mime cacheControl : Bytes)
  | file (data mime cacheControl : Bytes) (size mtime : ℤ)

namespace Found

def response (ifNoneMatch : Bytes) : Found → Response
  | page r => r
  | untagged data mime cacheControl => staticResponse 200 data mime cacheControl []
  | file data mime cacheControl size mtime =>
    if etagMatches ifNoneMatch (makeEtag size mtime) then
      staticResponse 304 [] mime cacheControl (makeEtag size mtime)
    else staticResponse 200 data mime cacheControl (makeEtag size mtime)

/-- Where it comes from. -/
inductive From (disk : Disk) (m : StaticMount) (path : Bytes) : Found → Prop
  | page {r : Response} (delimited : Delimited r) (code : r.code ≠ 200 ∧ r.code ≠ 304) :
    From disk m path (page r)
  | untagged {data mime cacheControl : Bytes} : From disk m path (untagged data mime cacheControl)
  | file {full mime cacheControl : Bytes} {size mtime : ℤ} (candidate : full ∈ m.candidates path)
    (regular : disk.regular full = some (size, mtime)) :
    From disk m path
      (file (disk.readBounded full m.options.maxFileBytes).data mime cacheControl size mtime)

end Found

section
variable (disk : Disk) (m : StaticMount) (path : Bytes)

/-- The answers to every `If-None-Match` come from the same finding. -/
def Answered (answer : Bytes → WireResponse) : Prop :=
  ∃ found, Found.From disk m path found ∧
    ∀ ifNoneMatch, answer ifNoneMatch = wire (found.response ifNoneMatch)

theorem answered_page {r : Response} (hr : Delimited r) (hcode : r.code ≠ 200 ∧ r.code ≠ 304) :
    Answered disk m path fun _ => wire r :=
  ⟨.page r, .page hr hcode, fun _ => rfl⟩

theorem answered_error (status : ℤ) (h : 200 ≤ status ∧ status ≤ 999)
    (hcode : status ≠ 200 ∧ status ≠ 204 ∧ status ≠ 304) (body mime : Bytes) :
    Answered disk m path fun _ => respond status body mime [] [] := by
  have hstatus : FinalStatus status body := .page h ⟨hcode.2.1, hcode.2.2⟩ body
  refine answered_page disk m path (delimited_staticResponse hstatus mime [] []) ?_
  rw [staticResponse_code]
  exact ⟨hcode.1, hcode.2.2⟩

theorem answered_forbidden : Answered disk m path fun _ => StaticMount.forbidden :=
  answered_error disk m path 403 (by decide) (by decide) _ _

theorem answered_notFound : Answered disk m path fun _ => StaticMount.notFound :=
  answered_error disk m path 404 (by decide) (by decide) _ _

theorem answered_serveFile {full : Bytes} (hfull : full ∈ m.candidates path)
    {missing : Bytes → WireResponse} (hmissing : Answered disk m path missing) :
    Answered disk m path fun ifNoneMatch =>
      m.serveFile disk full ifNoneMatch (missing ifNoneMatch) := by
  unfold StaticMount.serveFile
  simp only
  cases (disk.readBounded full m.options.maxFileBytes).err with
  | notFound => exact hmissing
  | forbidden => exact answered_forbidden disk m path
  | tooLarge => exact answered_error disk m path 413 (by decide) (by decide) _ _
  | ioError => exact answered_error disk m path 500 (by decide) (by decide) _ _
  | ok =>
    simp only
    split_ifs with hcache
    · cases hregular : disk.regular full with
      | none =>
        let data := (disk.readBounded full m.options.maxFileBytes).data
        refine ⟨.untagged data (mimeOf full) m.cacheControlHeader, .untagged, ?_⟩
        intro ifNoneMatch
        exact if_neg fun h => h.1 rfl
      | some stamp =>
        obtain ⟨size, mtime⟩ := stamp
        let data := (disk.readBounded full m.options.maxFileBytes).data
        refine ⟨.file data (mimeOf full) m.cacheControlHeader size mtime, .file hfull hregular, ?_⟩
        intro ifNoneMatch
        simp only [ne_eq, (plain_makeEtag size mtime).1, not_false_eq_true, true_and,
          Found.response]
        split_ifs <;> rfl
    · exact ⟨.untagged _ (mimeOf full) m.cacheControlHeader, .untagged, fun _ => rfl⟩

theorem answered_serveIndex : Answered disk m path fun ifNoneMatch =>
    m.serveIndex disk ifNoneMatch := by
  unfold StaticMount.serveIndex
  split_ifs
  · exact answered_forbidden disk m path
  · exact answered_serveFile disk m path (by simp [StaticMount.candidates])
      (answered_notFound disk m path)

theorem answered_serve : Answered disk m path fun ifNoneMatch =>
    (m.serve disk path (bytes "GET") ifNoneMatch).getD notDefinedPage := by
  unfold StaticMount.serve
  simp only
  split_ifs with hmethod hmount hparent hwithin
  · exact absurd rfl hmethod.1
  · exact answered_page disk m path
      (delimited_errorPage 404 (by decide) (by decide) "this route is not defined") (by decide)
  · exact answered_forbidden disk m path
  · exact answered_forbidden disk m path
  · simp only [Option.getD_some]
    unfold StaticMount.servePath
    have htarget : m.target disk (m.relative (percentDecode path)) ∈ m.candidates path := by
      unfold StaticMount.target
      split_ifs <;> simp [StaticMount.candidates]
    split_ifs
    · exact answered_serveFile disk m path htarget (answered_serveIndex disk m path)
    · exact answered_serveFile disk m path htarget (answered_notFound disk m path)

end

/-! The client. -/

/-- What a client keeps of a response. -/
structure Kept where
  tag : Bytes
  body : Bytes
  deriving DecidableEq, Repr

/-- A 304 leaves what was kept, a 200 with a tag replaces it, and nothing else is kept. -/
def keep (kept : Option Kept) (reply : Reply) : Option Kept :=
  if reply.code = 304 then kept
  else if reply.code = 200 then
    match Reply.values (bytes "ETag") reply.fields with
    | [tag] => some ⟨tag, reply.body⟩
    | _ => none
  else none

/-- A GET of the path with this tag in `If-None-Match`, or without the header. -/
def asks (path tag raw : Bytes) : Bool :=
  (parse raw).any fun message => message.method = bytes "GET" ∧ message.path = path ∧
    message.header (bytes "If-None-Match") = tag

/-- A client beside the disk of its server. -/
structure Watched where
  disk : Disk
  kept : Option Kept := none

inductive WatchStep
  | change (disk : Disk)
  | refresh (now finish : ℤ) (allow : Bool) (raw : Bytes)

/-- What the client has behind the response to a request. -/
def fetched (t : Tables) (w : World) (allow : Bool) (raw : Bytes) (kept : Option Kept) :
    Option (Option Kept) :=
  match executeRoute w t allow raw with
  | .error _ => none
  | .ok e => (Reply.read false (e.head ++ e.body)).map fun read => keep kept read.1

namespace Watched

def tag (s : Watched) : Bytes := (s.kept.map (·.tag)).getD []

/-- The files change at any time. A client refreshes with the tag that it has. -/
def step (t : Tables) (path : Bytes) (s : Watched) : WatchStep → Option Watched
  | .change disk => some { s with disk := disk }
  | .refresh now finish allow raw =>
    if asks path s.tag raw then
      (fetched t ⟨s.disk, now, finish⟩ allow raw s.kept).map fun kept => { s with kept := kept }
    else none

end Watched

/-- What a client has behind a finding, if it asked with the tag of what it kept. -/
def Found.kept (ifNoneMatch : Bytes) (kept : Option Kept) : Found → Option Kept
  | page _ => none
  | untagged _ _ _ => none
  | file data _ _ size mtime =>
    if etagMatches ifNoneMatch (makeEtag size mtime) then kept
    else some ⟨makeEtag size mtime, data⟩

section
variable {disk : Disk} {m : StaticMount} {path : Bytes}

theorem Found.From.delimited {found : Found} (h : found.From disk m path) (ifNoneMatch : Bytes) :
    Delimited (found.response ifNoneMatch) := by
  have hpage (body mime cacheControl etag : Bytes) :
      Delimited (staticResponse 200 body mime cacheControl etag) :=
    delimited_staticResponse (.page (by decide) (by decide) body) mime cacheControl etag
  cases h with
  | page delimited _ => exact delimited
  | untagged => exact hpage _ _ _ []
  | file =>
    simp only [Found.response]
    split_ifs
    · exact delimited_staticResponse ⟨by decide, by decide, fun _ => rfl⟩ _ _ _
    · exact hpage _ _ _ _

/-- What the client reads is what was found. -/
theorem Found.From.read {found : Found} (h : found.From disk m path) (ifNoneMatch : Bytes)
    (requested allow : Bool) (kept : Option Kept) :
    let r := found.response ifNoneMatch
    (Reply.read false ((settleConnection requested allow r.head).2 ++ r.body)).map
      (fun read => keep kept read.1) = some (found.kept ifNoneMatch kept) := by
  intro r
  have hr : Delimited r := h.delimited ifNoneMatch
  obtain ⟨sent, hsent, -, hread⟩ := hr.read_sent requested allow false []
  simp only [Bool.false_eq_true, if_false, List.append_nil] at hread
  rw [hread, Option.map_some]
  congr 1
  have hcode {n : ℕ} : r.code.toNat = n ↔ r.code = n := by
    have hlow := hr.status.low
    omega
  -- the tag is read as it was set
  have hvalues {status : ℤ} {body mime cacheControl : Bytes} (etag : Bytes)
      (hr' : r = staticResponse status body mime cacheControl etag)
      (hplain : sanitize etag = etag ∧ COLON ∉ etag) :
      Reply.values (bytes "ETag") (sent.map trimmedField) =
        if etag ≠ [] then [trim etag] else [] := by
    have hetag := staticResponse_etag status body mime cacheControl etag
    rw [← hr', hplain.1] at hetag
    rw [hr.values_sent hsent (by decide), hetag]
    · split_ifs <;> rfl
    · rw [hetag]
      intro value hvalue
      split_ifs at hvalue
      · cases hvalue
        exact hplain.2
      · cases hvalue
  cases h with
  | page delimited code =>
    obtain ⟨hok, hsame⟩ := code
    simp only [keep, hcode]
    rw [if_neg (by exact_mod_cast hsame), if_neg (by exact_mod_cast hok)]
    rfl
  | @untagged data mime cacheControl =>
    have hstatus : r.code = 200 := staticResponse_code 200 data mime cacheControl []
    have hnone := hvalues [] rfl ⟨rfl, by simp⟩
    simp only [keep, hstatus, hnone]
    rfl
  | @file full mime cacheControl size mtime candidate regular =>
    obtain ⟨hfull, hclean, hcolon, htrim⟩ := plain_makeEtag size mtime
    by_cases hmatch : etagMatches ifNoneMatch (makeEtag size mtime) = true
    · have hr' : r = staticResponse 304 [] mime cacheControl (makeEtag size mtime) := if_pos hmatch
      have hstatus : r.code = 304 := hr' ▸ staticResponse_code ..
      simp only [keep, hstatus, Found.kept, if_pos hmatch]
      rfl
    · have hr' : r = staticResponse 200 (disk.readBounded full m.options.maxFileBytes).data mime
          cacheControl (makeEtag size mtime) := if_neg hmatch
      have hstatus : r.code = 200 := hr' ▸ staticResponse_code ..
      have hbody : r.body = (disk.readBounded full m.options.maxFileBytes).data :=
        hr' ▸ staticResponse_body ..
      have htag := hvalues (makeEtag size mtime) hr' ⟨hclean, hcolon⟩
      rw [if_pos hfull, htrim] at htag
      simp only [keep, hstatus, htag, hbody, Found.kept, if_neg hmatch]
      rfl

end

/-- The mount answers the path: no route does, and no other mount is longer. -/
structure Mounted (t : Tables) (m : StaticMount) (path : Bytes) : Prop where
  exact : Assoc.get id (routeKey path (bytes "GET")) t.routes = none
  patterns : t.patternRoutes = []
  best : bestMount path t.mounts = some m

/-- In these states of the disk the size and the time tell the contents apart that the path has. -/
def StaticMount.Stamped (m : StaticMount) (path : Bytes) (disks : Set Disk) : Prop :=
  ∀ disk ∈ disks, ∀ disk' ∈ disks, ∀ full ∈ m.candidates path, ∀ full' ∈ m.candidates path,
    ∀ stamp, disk.regular full = some stamp → disk'.regular full' = some stamp →
      (disk.readBounded full m.options.maxFileBytes).data =
        (disk'.readBounded full' m.options.maxFileBytes).data

section
variable {t : Tables} {m : StaticMount} {path : Bytes} (hmount : Mounted t m path)
include hmount

theorem Mounted.executes {tag raw : Bytes} (hasks : asks path tag raw = true) (disk : Disk)
    (now finish : ℤ) (allow : Bool) :
    let response := (m.serve disk path (bytes "GET") tag).getD notDefinedPage
    ∃ requested keepAlive, executeRoute ⟨disk, now, finish⟩ t allow raw =
      .ok ⟨(settleConnection requested allow response.head).2, response.body, keepAlive⟩ := by
  intro response
  obtain ⟨message, hparse, hmethod, hpath, htag⟩ : ∃ message, parse raw = some message ∧
      message.method = bytes "GET" ∧ message.path = path ∧
      message.header (bytes "If-None-Match") = tag := by
    unfold asks at hasks
    cases hparse : parse raw with
    | none => simp [hparse] at hasks
    | some message =>
      rw [hparse] at hasks
      exact ⟨message, rfl, of_decide_eq_true hasks⟩
  have hserved : ∃ served, serveMessage ⟨disk, now, finish⟩ t message = .ok served ∧
      served.response = response := by
    have hroutes : serveRoutes ⟨disk, now, finish⟩ t message =
        .ok ((m.serve disk path (bytes "GET") tag).map fun response =>
          ⟨.mount m, response, none⟩) := by
      unfold serveRoutes
      rw [hpath, hmethod, hmount.exact]
      simp only [hmount.patterns, ne_eq, not_true_eq_false, if_false, hmount.best, htag]
    unfold serveMessage
    rw [hroutes]
    cases hserve : m.serve disk path (bytes "GET") tag with
    | none => exact ⟨_, rfl, by simp [response, hserve]⟩
    | some r => exact ⟨_, rfl, by simp [response, hserve]⟩
  obtain ⟨served, hok, hresponse⟩ := hserved
  have hget : message.method ≠ bytes "HEAD" := by
    rw [hmethod]
    decide
  refine ⟨keepAliveRequested message,
    (settleConnection (keepAliveRequested message) allow response.head).1, ?_⟩
  unfold executeRoute
  rw [hparse]
  simp only [hok, Bind.bind, Except.bind, Pure.pure, Except.pure, if_neg hget, hresponse]

/-- What a client has behind a request is settled by what is found. -/
theorem Mounted.fetched (disk : Disk) : ∃ found, Found.From disk m path found ∧
    ∀ tag raw, asks path tag raw = true → ∀ now finish allow kept,
      fetched t ⟨disk, now, finish⟩ allow raw kept = some (found.kept tag kept) := by
  obtain ⟨found, hfound, hanswer⟩ := answered_serve disk m path
  refine ⟨found, hfound, fun tag raw hasks now finish allow kept => ?_⟩
  obtain ⟨requested, keepAlive, hexecutes⟩ := hmount.executes hasks disk now finish allow
  have htag := hanswer tag
  simp only at htag
  rw [htag] at hexecutes
  unfold Router.fetched
  rw [hexecutes]
  exact hfound.read tag requested allow kept

end

/-- What is kept was read off some earlier disk, with its tag. -/
def Watched.Held (m : StaticMount) (path : Bytes) (disks : Set Disk) (s : Watched) : Prop :=
  s.disk ∈ disks ∧ ∀ kept, s.kept = some kept → ∃ disk ∈ disks, ∃ full ∈ m.candidates path,
    ∃ size mtime, disk.regular full = some (size, mtime) ∧
      kept = ⟨makeEtag size mtime, (disk.readBounded full m.options.maxFileBytes).data⟩

section
variable {m : StaticMount} {path : Bytes} {disks : Set Disk} {s : Watched}

/-- The tag of what is kept matches only where the file is still the same. -/
theorem Watched.Held.fresh (h : s.Held m path disks) (hstamps : m.Stamped path disks)
    {found : Found} (hfound : found.From s.disk m path) :
    found.kept s.tag s.kept = found.kept [] none := by
  cases hfound with
  | page => rfl
  | untagged => rfl
  | @file full mime cacheControl size mtime candidate regular =>
    have hblank : etagMatches [] (makeEtag size mtime) = false := rfl
    simp only [Found.kept, hblank, Bool.false_eq_true, if_false]
    split_ifs with hmatch
    · cases hkept : s.kept with
      | none =>
        have htag : s.tag = [] := by rw [Watched.tag, hkept]; rfl
        rw [htag, hblank] at hmatch
        cases hmatch
      | some kept =>
        obtain ⟨hdisk, hheld⟩ := h
        obtain ⟨disk', hdisk', full', hfull', size', mtime', hregular', rfl⟩ := hheld kept hkept
        have htag : s.tag = makeEtag size' mtime' := by rw [Watched.tag, hkept]; rfl
        rw [htag, etagMatches_fileTag] at hmatch
        have hdata := hstamps disk' hdisk' s.disk hdisk full' hfull' full candidate _ hregular'
          (hmatch ▸ regular)
        obtain ⟨rfl, rfl⟩ := Prod.mk.inj hmatch
        rw [hdata]
    · rfl

theorem Watched.Held.step {t : Tables} (hmount : Mounted t m path) {s' : Watched} {l : WatchStep}
    (h : s.Held m path disks) (hstamps : m.Stamped path disks)
    (hchange : ∀ disk, l = .change disk → disk ∈ disks) (hs : s.step t path l = some s') :
    s'.Held m path disks := by
  cases l with
  | change disk =>
    cases hs
    exact ⟨hchange disk rfl, h.2⟩
  | refresh now finish allow raw =>
    obtain ⟨found, hfound, hfetched⟩ := hmount.fetched s.disk
    simp only [Watched.step] at hs
    split_ifs at hs with hasks
    rw [hfetched s.tag raw hasks] at hs
    cases hs
    refine ⟨h.1, fun kept hkept => ?_⟩
    simp only at hkept
    rw [h.fresh hstamps hfound] at hkept
    cases hfound with
    | page => cases hkept
    | untagged => cases hkept
    | file candidate regular =>
      cases hkept
      exact ⟨s.disk, h.1, _, candidate, _, _, regular, rfl⟩

end

/-- However the files change between the requests of a client that keeps the file of a path and asks
again with its tag: as long as size and time tell the contents apart, it has behind each request
what it would have if it had kept nothing and asked without a tag. -/
theorem revalidation_transparent (t : Tables) (m : StaticMount) (path : Bytes)
    (hmount : Mounted t m path) (disks : Set Disk) (hstamps : m.Stamped path disks) (disk : Disk)
    (hdisk : disk ∈ disks) (steps : List WatchStep)
    (hchanges : ∀ disk, .change disk ∈ steps → disk ∈ disks) (s s' : Watched)
    (hrun : exec (Watched.step t path) ⟨disk, none⟩ steps = some s) (now finish : ℤ) (allow : Bool)
    (raw : Bytes) (hrefresh : s.step t path (.refresh now finish allow raw) = some s')
    (plain : Bytes) (hplain : asks path [] plain = true) :
    fetched t ⟨s.disk, now, finish⟩ allow plain none = some s'.kept := by
  have hfresh : Watched.Held m path disks ⟨disk, none⟩ := ⟨hdisk, fun kept hkept => by cases hkept⟩
  have hguarded : Guarded (Watched.step t path)
      (fun _ l => ∀ disk, l = .change disk → disk ∈ disks) ⟨disk, none⟩ steps :=
    guarded_of_mem (fun _ hl disk heq => hchanges disk (by rwa [← heq])) _
  have hheld : s.Held m path disks :=
    (along_of_guarded (fun _ _ _ hs hl hu => hs.step hmount hstamps hl hu) hfresh
      hguarded).exec hrun
  obtain ⟨found, hfound, hfetched⟩ := hmount.fetched s.disk
  rw [hfetched [] plain hplain]
  simp only [Watched.step] at hrefresh
  split_ifs at hrefresh with hasks
  rw [hfetched s.tag raw hasks] at hrefresh
  cases hrefresh
  rw [← hheld.fresh hstamps hfound]

/-- A disk with one file, whose content is its time. -/
def versionDisk (mtime : ℕ) : Disk where
  isDirectory _ := false
  regular path := if path = bytes "./a.txt" then some ((toChars mtime).length, mtime) else none
  readBounded path _ :=
    if path = bytes "./a.txt" then ⟨.ok, toChars mtime⟩ else ⟨.notFound, []⟩
  isWithin _ _ := true

theorem stamped_versionDisk (m : StaticMount) (path : Bytes) :
    m.Stamped path (Set.range versionDisk) := by
  rintro _ ⟨n, rfl⟩ _ ⟨n', rfl⟩ full _ full' _ stamp hstamp hstamp'
  simp only [versionDisk] at hstamp hstamp'
  split_ifs at hstamp hstamp' with hfull hfull'
  obtain rfl : n = n' := by
    have htimes := hstamp.trans hstamp'.symm
    simpa using congrArg (Option.map Prod.snd) htimes
  simp [versionDisk, hfull, hfull']

/-- The file changes between a request and the next one, which has the tag of the first. -/
theorem revalidation_transparent_versions :
    let t : Tables := { mounts := [StaticMount.make (bytes "/") [] {}] }
    let plain := bytes "GET /a.txt HTTP/1.1\r\nHost: b\r\n\r\n"
    let again := bytes "GET /a.txt HTTP/1.1\r\nHost: b\r\nIf-None-Match: \"1-7\"\r\n\r\n"
    ∃ s s' : Watched, exec (Watched.step t (bytes "/a.txt")) ⟨versionDisk 7, none⟩
        [.refresh 1 1 true plain, .change (versionDisk 8)] = some s ∧
      s.step t (bytes "/a.txt") (.refresh 2 2 true again) = some s' ∧
      s'.kept = some ⟨bytes "\"1-8\"", bytes "8"⟩ ∧
      fetched t ⟨s.disk, 2, 2⟩ true plain none = some s'.kept := by
  intro t plain again
  have hfirst : fetched t ⟨versionDisk 7, 1, 1⟩ true plain none =
      some (some ⟨bytes "\"1-7\"", bytes "7"⟩) := by decide +kernel
  have hsecond : fetched t ⟨versionDisk 8, 2, 2⟩ true again (some ⟨bytes "\"1-7\"", bytes "7"⟩) =
      some (some ⟨bytes "\"1-8\"", bytes "8"⟩) := by decide +kernel
  have hplain : asks (bytes "/a.txt") [] plain = true := by decide +kernel
  have hagain : asks (bytes "/a.txt") (bytes "\"1-7\"") again = true := by decide +kernel
  let s : Watched := ⟨versionDisk 8, some ⟨bytes "\"1-7\"", bytes "7"⟩⟩
  let s' : Watched := ⟨versionDisk 8, some ⟨bytes "\"1-8\"", bytes "8"⟩⟩
  have hrun : exec (Watched.step t (bytes "/a.txt")) ⟨versionDisk 7, none⟩
      [.refresh 1 1 true plain, .change (versionDisk 8)] = some s := by
    have hasks : asks (bytes "/a.txt") (Watched.tag ⟨versionDisk 7, none⟩) plain = true := hplain
    simp only [exec, Watched.step, if_pos hasks, hfirst, Option.map_some, Option.bind_some]
    rfl
  have hstep : s.step t (bytes "/a.txt") (.refresh 2 2 true again) = some s' := by
    have hasks : asks (bytes "/a.txt") s.tag again = true := hagain
    simp only [Watched.step, if_pos hasks]
    rw [hsecond]
    rfl
  refine ⟨s, s', hrun, hstep, rfl, ?_⟩
  exact revalidation_transparent t _ (bytes "/a.txt") ⟨rfl, rfl, rfl⟩ _ (stamped_versionDisk _ _)
    (versionDisk 7) ⟨7, rfl⟩ _ (by
      intro disk hdisk
      simp only [List.mem_cons, reduceCtorEq, WatchStep.change.injEq, List.not_mem_nil, or_false,
        false_or] at hdisk
      exact ⟨8, hdisk.symm⟩) s s' hrun 2 2 true again hstep plain hplain

end Vermell.Router
