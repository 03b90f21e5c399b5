import Vermell.Router.VerReader

/-! `compose`: pages without a module tag, and what every page and every file it opens keep to. -/
namespace Vermell.Router
open Http Text

/-- Without an opening the scan only looks for the first closing. -/
theorem scanTag_untagged {body : Bytes} (h : ¬OPEN <:+: body) (iter : ℕ) (opening : Option ℕ) :
    scanTag iter opening body = (opening, (find CLOSE body).map (· + iter)) := by
  induction body generalizing iter with
  | nil => simp [scanTag, find, CLOSE]
  | cons a s ih =>
    cases s with
    | nil => simp [scanTag, find, CLOSE]
    | cons b s =>
      have hopen : ¬(a = HASH ∧ b = OPEN_BRACKET) := by
        rintro ⟨rfl, rfl⟩
        exact h ⟨[], s, rfl⟩
      have htail : ¬OPEN <:+: b :: s := fun hin => h (hin.trans (List.suffix_cons a _).isInfix)
      have hhit : CLOSE <+: a :: b :: s ↔ a = CLOSE_BRACKET ∧ b = SEMICOLON := by
        simp [CLOSE, List.cons_prefix_cons, eq_comm]
      rw [scanTag, find, if_neg hopen]
      by_cases hclose : a = CLOSE_BRACKET ∧ b = SEMICOLON
      · rw [if_pos hclose, if_pos (hhit.mpr hclose)]
        simp
      · rw [if_neg hclose, if_neg (mt hhit.mp hclose), ih htail, Option.map_map]
        refine congrArg (Prod.mk opening) (congrArg (Option.map · _) ?_)
        funext n
        simp only [Function.comp_apply]
        omega

theorem findTag_untagged {body : Bytes} (h : ¬OPEN <:+: body) :
    findTag body = if (find CLOSE body).isNone then .absent else .unclosed := by
  unfold findTag
  rw [scanTag_untagged h]
  cases find CLOSE body <;> rfl

theorem passesOf_eq_zero_iff (reserve : ℤ) : passesOf reserve = 0 ↔ reserve ≤ 0 := by
  unfold passesOf MAX_PASSES
  split_ifs with hneg hlarge <;> omega

theorem passesOf_le (reserve : ℤ) : passesOf reserve ≤ 64 := by
  unfold passesOf MAX_PASSES
  split_ifs with hneg hlarge <;> omega

section
variable (disk : Disk) (sec : RenderSecurity)

/-- A pass over a text without an opening. -/
theorem tratament_untagged {body : Bytes} (h : ¬OPEN <:+: body) (folder : Bytes) :
    (tratament disk sec folder body).tag =
      if (find CLOSE body).isNone then .done else .unclosed := by
  unfold tratament
  rw [findTag_untagged h]
  split_ifs <;> rfl

/-- One pass decides: a text without an opening is finished, unless it has a closing. -/
theorem composePasses_untagged {body : Bytes} (h : ¬OPEN <:+: body) (folder : Bytes) (n : ℕ) :
    (composePasses disk sec folder n body).page = body ∧
        (composePasses disk sec folder n body).status = bytes "200" ↔
      ¬CLOSE <:+: body ∨ n = 0 := by
  cases n with
  | zero => simp [composePasses]
  | succ n =>
    have htag := tratament_untagged disk sec h folder
    rw [composePasses]
    cases hclose : (find CLOSE body).isNone with
    | true =>
      rw [hclose, if_pos rfl] at htag
      simp [htag, (find_isNone_iff CLOSE body).mp hclose]
    | false =>
      rw [hclose, if_neg Bool.false_ne_true] at htag
      have hin : CLOSE <:+: body := by
        by_contra hnot
        exact Bool.false_ne_true (hclose.symm.trans ((find_isNone_iff CLOSE body).mpr hnot))
      have hstatus : bytes "400" ≠ bytes "200" := by decide
      simp [htag, hin, hstatus]

/-- A page without an opening tag comes back as it is, unless a pass over it meets a closing one. -/
theorem processing_untagged (path : Bytes) (reserve : ℤ)
    (hwithin : disk.isWithin (effectiveRoot sec) path = true)
    (hread : (disk.readBounded path sec.maxFileBytes).err = .ok)
    (hfree : ¬OPEN <:+: (disk.readBounded path sec.maxFileBytes).data) :
    (processing disk sec path reserve).page = (disk.readBounded path sec.maxFileBytes).data ∧
        (processing disk sec path reserve).status = bytes "200" ↔
      ¬CLOSE <:+: (disk.readBounded path sec.maxFileBytes).data ∨ reserve ≤ 0 := by
  rw [← passesOf_eq_zero_iff, ← composePasses_untagged disk sec hfree (folderBase path)]
  simp [processing, hwithin, hread]

end

/-- A disk with one page for every path. -/
def pageDisk (page : Bytes) : Disk where
  isDirectory _ := false
  regular _ := none
  readBounded _ _ := ⟨.ok, page⟩
  isWithin _ _ := true

theorem processing_untagged_plain :
    (processing (pageDisk (bytes "<p>[a]</p>")) {} (bytes "page") 2).page = bytes "<p>[a]</p>" ∧
        (processing (pageDisk (bytes "<p>[a]</p>")) {} (bytes "page") 2).status = bytes "200" ↔
      ¬CLOSE <:+: bytes "<p>[a]</p>" ∨ (2 : ℤ) ≤ 0 :=
  processing_untagged (pageDisk (bytes "<p>[a]</p>")) {} (bytes "page") 2 rfl rfl (by decide)

/-- A script that ends a statement with an index. -/
theorem processing_script_index :
    ¬OPEN <:+: bytes "<script>x=a[0];</script>" ∧
      ¬((processing (pageDisk (bytes "<script>x=a[0];</script>")) {} (bytes "page") 2).page =
          bytes "<script>x=a[0];</script>" ∧
        (processing (pageDisk (bytes "<script>x=a[0];</script>")) {} (bytes "page") 2).status =
          bytes "200") := by
  decide +kernel

/-- A file that stands in the folder under the name of a module. -/
def ModuleOf (folder path : Bytes) : Prop :=
  ∃ name, path = folder ++ SLASH :: name ∧
    name ≠ [] ∧ (∀ c ∈ name, isNameByte c = true) ∧ ¬[DOT, DOT] <:+: name

/-- What a composition of at most `n` tags keeps to. -/
structure Composition.Confined (folder : Bytes) (maxBytes n : ℕ) (c : Composition) : Prop where
  expansions : c.expansions ≤ n
  opens : c.opened.length ≤ n
  page : c.status = bytes "200" → c.page.length ≤ maxBytes
  opened : ∀ path ∈ c.opened, ModuleOf folder path

section
variable (disk : Disk) (sec : RenderSecurity)

/-- One tag opens one file at most, and only under a valid name. -/
theorem tratament_opened (folder body : Bytes) :
    (tratament disk sec folder body).opened.length ≤ 1 ∧
      ∀ path ∈ (tratament disk sec folder body).opened, ModuleOf folder path := by
  unfold tratament
  cases findTag body with
  | absent => simp
  | unclosed => simp
  | found opening closing =>
    generalize hname : (body.drop (opening + 2)).take (closing - opening - 2) = name
    dsimp only
    rw [hname]
    cases hvalid : validIncludeName name with
    | false => simp
    | true =>
      have hmodule : ModuleOf folder (folder ++ SLASH :: name) :=
        ⟨name, rfl, validIncludeName_sound hvalid⟩
      cases disk.isWithin folder (folder ++ SLASH :: name) with
      | false => simp
      | true =>
        cases (disk.readBounded (folder ++ SLASH :: name) sec.maxFileBytes).err <;>
          simpa using hmodule

theorem Composition.Confined.behind {folder : Bytes} {maxBytes n : ℕ} {c : Composition}
    (h : c.Confined folder maxBytes n) {opened : List Bytes} (hlength : opened.length ≤ 1)
    (hopened : ∀ path ∈ opened, ModuleOf folder path) :
    (c.behind opened).Confined folder maxBytes (n + 1) where
  expansions := Nat.succ_le_succ h.expansions
  opens := by
    have hrest := h.opens
    simp only [Composition.behind, List.length_append]
    omega
  page := h.page
  opened := List.forall_mem_append.mpr ⟨hopened, h.opened⟩

/-- A composition that ends with an error. -/
theorem Composition.Confined.failed {folder : Bytes} {maxBytes n expansions : ℕ}
    {page status : Bytes} {opened : List Bytes} (hstatus : status ≠ bytes "200")
    (hexpansions : expansions ≤ 1) (hlength : opened.length ≤ 1)
    (hopened : ∀ path ∈ opened, ModuleOf folder path) :
    (Composition.mk page status opened expansions).Confined folder maxBytes (n + 1) where
  expansions := hexpansions.trans (Nat.le_add_left 1 n)
  opens := hlength.trans (Nat.le_add_left 1 n)
  page := fun h => absurd h hstatus
  opened := hopened

/-- Each way out of the loop: an error keeps no page, and a page is below the limit. -/
theorem composePasses_confined (folder : Bytes) (n : ℕ) {body : Bytes}
    (hbody : body.length ≤ sec.maxFileBytes) :
    (composePasses disk sec folder n body).Confined folder sec.maxFileBytes n := by
  induction n generalizing body with
  | zero => exact ⟨le_rfl, le_rfl, fun _ => hbody, by simp [composePasses]⟩
  | succ n ih =>
    obtain ⟨hlength, hopened⟩ := tratament_opened disk sec folder body
    rw [composePasses]
    cases (tratament disk sec folder body).tag with
    | done =>
      exact ⟨Nat.zero_le _, hlength.trans (Nat.le_add_left 1 n), fun _ => hbody, hopened⟩
    | ok =>
      dsimp only
      split_ifs with hlarge
      · exact .failed (by decide) le_rfl hlength hopened
      · exact (ih (Nat.le_of_not_lt hlarge)).behind hlength hopened
    | unclosed => exact .failed (by decide) zero_le_one hlength hopened
    | badName => exact .failed (by decide) zero_le_one hlength hopened
    | notFound => exact .failed (by decide) zero_le_one hlength hopened
    | tooLarge => exact .failed (by decide) zero_le_one hlength hopened
    | ioError => exact .failed (by decide) zero_le_one hlength hopened

end

theorem mem_of_mem_parentPath {path : Bytes} {c : UInt8} (h : c ∈ parentPath path) : c ∈ path := by
  unfold parentPath at h
  dsimp only at h
  split_ifs at h with hslashes hroot
  · exact h
  · rw [List.mem_singleton.mp h]
    exact List.mem_of_mem_head? hroot.2
  · exact (List.rdropWhile_prefix _ _).subset ((List.rdropWhile_prefix _ _).subset h)

/-- The folder of a path that reaches the system call whole does so too, and so do its modules. -/
theorem ModuleOf.cString_eq {path opened : Bytes} (hpath : (0 : UInt8) ∉ path)
    (h : ModuleOf (folderBase path) opened) : cString opened = opened := by
  obtain ⟨name, rfl, -, hname, -⟩ := h
  refine cString_eq_self ?_
  rw [List.mem_append, List.mem_cons, not_or, not_or]
  refine ⟨?_, by decide, fun hmem => absurd (hname 0 hmem) (by decide)⟩
  unfold folderBase
  split_ifs with hparent
  · decide
  · exact fun hmem => hpath (mem_of_mem_parentPath hmem)

theorem statusOf_ne {err : ReadErr} (h : err ≠ .ok) : statusOf err ≠ bytes "200" := by
  cases err with
  | ok => exact absurd rfl h
  | notFound => decide
  | forbidden => decide
  | tooLarge => decide
  | ioError => decide

/-- Whatever the files hold: at most 64 tags are filled, a page that is returned with 200 is not
above the limit, and behind the template only modules of its folder are opened, under names that
`open` gets whole where it gets the template's. -/
theorem processing_confined (fs : FileSystem) (sec : RenderSecurity) (path : Bytes) (reserve : ℤ) :
    (processing fs.disk sec path reserve).expansions ≤ 64 ∧
      ((processing fs.disk sec path reserve).status = bytes "200" →
        (processing fs.disk sec path reserve).page.length ≤ sec.maxFileBytes) ∧
      ((processing fs.disk sec path reserve).opened = [] ∨
        ∃ modules, (processing fs.disk sec path reserve).opened = path :: modules ∧
          modules.length ≤ 64 ∧ (∀ opened ∈ modules, ModuleOf (folderBase path) opened) ∧
          ((0 : UInt8) ∉ path → ∀ opened ∈ modules, cString opened = opened)) := by
  unfold processing
  dsimp only
  split_ifs with hjail hread
  · exact ⟨Nat.zero_le _, fun h => absurd h (by decide : bytes "403" ≠ bytes "200"), .inl rfl⟩
  · refine ⟨Nat.zero_le _, ?_, .inr ⟨[], rfl, Nat.zero_le _, by simp, by simp⟩⟩
    intro hstatus
    exact absurd hstatus (statusOf_ne hread)
  · have hpasses := passesOf_le reserve
    have hconfined := composePasses_confined fs.disk sec (folderBase path) (passesOf reserve)
      (fs.readBounded_length path sec.maxFileBytes)
    exact ⟨hconfined.expansions.trans hpasses, hconfined.page,
      .inr ⟨_, rfl, hconfined.opens.trans hpasses, hconfined.opened,
        fun hpath opened hmem => (hconfined.opened opened hmem).cString_eq hpath⟩⟩

end Vermell.Router
