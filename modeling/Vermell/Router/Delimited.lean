import Vermell.Http.Client
import Vermell.Router.ConnectionHeader
import Vermell.Router.OneResponse

/-! Responses whose end a client can tell: the framework frames the body by its length, nobody sets
another framing, and a status that has no body gets none. -/
namespace Vermell.Router
open Http Text

/-- A header name that a client can read and that does not touch the framing. -/
def PlainName (name : Bytes) : Prop :=
  isToken name = true ∧ lower name ≠ lower (bytes "Content-Length") ∧
    lower name ≠ lower (bytes "Transfer-Encoding")

instance (name : Bytes) : Decidable (PlainName name) :=
  inferInstanceAs (Decidable (_ ∧ _ ∧ _))

/-- A status of three digits that ends its request, without a body where it must have none. -/
structure FinalStatus (status : ℤ) (body : Bytes) : Prop where
  low : 200 ≤ status
  high : status ≤ 999
  bodyless : status = 204 ∨ status = 304 → body = []

/-- A response whose end a client can tell. -/
structure Delimited (r : Response) : Prop where
  sound : r.Sound
  names : ∀ f ∈ r.headers, PlainName f.1
  status : FinalStatus r.code r.body

/-! The patch of the Connection header changes the value of one field at most. -/

theorem connectionKeepAlive_eq :
    CONNECTION_KEEP_ALIVE = bytes "Connection" ++ COLON :: SP :: bytes "keep-alive" := by decide

theorem connectionClose_eq :
    CONNECTION_CLOSE = bytes "Connection" ++ COLON :: SP :: bytes "close" := by decide

theorem fieldText_eq (f : Bytes × Bytes) : fieldText f = f.1 ++ COLON :: SP :: f.2 := by
  rw [fieldText, List.append_assoc]
  rfl

/-- The field behind the patch: its name stands, and a value without a colon changes only where the
name ends in that of the header. -/
structure Patched (f g : Bytes × Bytes) : Prop where
  name : g.1 = f.1
  clean : Clean f.2 → Clean g.2
  value : COLON ∉ f.2 → g = f ∨ ∃ l, f.1 = l ++ bytes "Connection"

theorem Patched.refl (f : Bytes × Bytes) : Patched f f := ⟨rfl, id, fun _ => Or.inl rfl⟩

theorem exists_patched {fields sent : List (Bytes × Bytes)} (h : List.Forall₂ Patched fields sent)
    {g : Bytes × Bytes} (hg : g ∈ sent) : ∃ f ∈ fields, Patched f g := by
  induction h with
  | nil => cases hg
  | @cons f g' fields sent hpatched hrest ih =>
    cases List.mem_cons.mp hg with
    | inl heq => exact ⟨f, List.mem_cons_self, heq ▸ hpatched⟩
    | inr hmem =>
      obtain ⟨f', hf', hpatched'⟩ := ih hmem
      exact ⟨f', List.mem_cons_of_mem f hf', hpatched'⟩

theorem patched_fieldText {f : Bytes × Bytes} (hname : COLON ∉ f.1) {l r : Bytes}
    (h : fieldText f = l ++ CONNECTION_KEEP_ALIVE ++ r) :
    ∃ g, Patched f g ∧ fieldText g = l ++ CONNECTION_CLOSE ++ r := by
  rw [fieldText_eq] at h
  by_cases hl : COLON ∈ l
  · -- the word stands in the value
    obtain ⟨l₁, l₂, rfl, hl₁⟩ := List.eq_append_cons_of_mem hl
    have hsame : f.1 ++ COLON :: SP :: f.2 =
        l₁ ++ COLON :: (l₂ ++ CONNECTION_KEEP_ALIVE ++ r) := by
      rw [h]
      simp
    obtain ⟨hf, hvalue⟩ := append_cons_inj hname hl₁ hsame
    cases l₂ with
    | nil => exact absurd (List.cons.inj hvalue).1 (by decide)
    | cons c l₂ =>
      obtain ⟨rfl, htail⟩ := List.cons.inj hvalue
      have hrest : f.2 = l₂ ++ CONNECTION_KEEP_ALIVE ++ r := htail
      refine ⟨(f.1, l₂ ++ CONNECTION_CLOSE ++ r), ⟨rfl, ?_, ?_⟩, ?_⟩
      · intro hclean
        rw [hrest, clean_append_iff, clean_append_iff] at hclean
        exact clean_append_iff.mpr
          ⟨clean_append_iff.mpr ⟨hclean.1.1, by decide⟩, hclean.2⟩
      · intro hcolon
        exact absurd (by simp [hrest, connectionKeepAlive_eq]) hcolon
      · rw [fieldText_eq, hf]
        simp
  · -- the name ends in that of the header
    have hcolon : COLON ∉ l ++ bytes "Connection" := by
      rw [List.mem_append, not_or]
      exact ⟨hl, by decide⟩
    have hsame : f.1 ++ COLON :: SP :: f.2 =
        (l ++ bytes "Connection") ++ COLON :: (SP :: (bytes "keep-alive" ++ r)) := by
      rw [h, connectionKeepAlive_eq]
      simp
    obtain ⟨hf, hvalue⟩ := append_cons_inj hname hcolon hsame
    obtain ⟨-, hvalue⟩ := List.cons.inj hvalue
    refine ⟨(f.1, bytes "close" ++ r), ⟨rfl, ?_, fun _ => Or.inr ⟨l, hf⟩⟩, ?_⟩
    · intro hclean
      rw [hvalue, clean_append_iff] at hclean
      exact clean_append_iff.mpr ⟨by decide, hclean.2⟩
    · rw [fieldText_eq, hf, connectionClose_eq]
      simp

/-- The head that is sent has the fields of the response, but for the patch. -/
theorem settle_fields (requested allow : Bool) (code : ℤ) {fields : List (Bytes × Bytes)}
    (hnames : ∀ f ∈ fields, COLON ∉ f.1) : ∃ sent, List.Forall₂ Patched fields sent ∧
      (settleConnection requested allow (headText (Response.statusLine code) fields)).2 =
        headText (Response.statusLine code) sent := by
  have hsame : List.Forall₂ Patched fields fields :=
    List.forall₂_same.mpr fun f _ => Patched.refl f
  rw [headText_eq]
  rcases settleConnection_lines requested allow
      (Response.statusLine code :: fields.map fieldText ++ [[]]) with
    hkept | ⟨before, l, r, after, hsplit, hpatched⟩
  · exact ⟨fields, hsame, by rw [hkept, headText_eq]⟩
  · have hcolon : COLON ∈ l ++ CONNECTION_KEEP_ALIVE ++ r := by simp [connectionKeepAlive_eq]
    -- the patched line has a colon, so it is neither the status line nor the empty one
    cases before with
    | nil =>
      obtain ⟨hstatus, -⟩ := List.cons.inj hsplit
      exact absurd (hstatus ▸ hcolon) (colon_not_mem_statusLine code)
    | cons status before =>
      obtain ⟨rfl, hlines⟩ := List.cons.inj hsplit
      rcases List.append_eq_append_iff.mp hlines with ⟨t, hbefore, hlast⟩ | ⟨t, hfields, hafter⟩
      · cases t with
        | nil =>
          obtain ⟨hnil, -⟩ := List.cons.inj hlast
          exact absurd (hnil ▸ hcolon) (by simp)
        | cons line t => simp at hlast
      · cases t with
        | nil =>
          obtain ⟨hnil, -⟩ := List.cons.inj hafter
          exact absurd (hnil ▸ hcolon) (by simp)
        | cons line t =>
          obtain ⟨rfl, rfl⟩ := List.cons.inj hafter
          obtain ⟨fs, rest, rfl, rfl, hrest⟩ := List.map_eq_append_iff.mp hfields
          obtain ⟨f, gs, rfl, hf, rfl⟩ := List.map_eq_cons_iff.mp hrest
          obtain ⟨g, hg, htext⟩ := patched_fieldText (hnames f (by simp)) hf
          refine ⟨fs ++ g :: gs, ?_, ?_⟩
          · refine List.rel_append (List.forall₂_same.mpr fun f _ => Patched.refl f) ?_
            exact .cons hg (List.forall₂_same.mpr fun f _ => Patched.refl f)
          · rw [hpatched, headText_eq, ← htext]
            simp

/-! The fields by which a client works out the length. -/

theorem under_trimmed (k : Bytes) (fields : List (Bytes × Bytes)) :
    Assoc.under lower k (fields.map trimmedField) =
      (Assoc.under lower k fields).map trimmedField := by
  unfold Assoc.under
  rw [List.filter_map]
  rfl

theorem values_trimmed (name : Bytes) (fields : List (Bytes × Bytes)) :
    Reply.values name (fields.map trimmedField) = (Reply.values name fields).map trim := by
  unfold Reply.values
  rw [under_trimmed, List.map_map, List.map_map]
  rfl

/-- The patch leaves the fields of a name alone that does not end in that of the header, where
their values have no colon. -/
theorem values_patched {name : Bytes} {fields sent : List (Bytes × Bytes)}
    (h : List.Forall₂ Patched fields sent)
    (hkeep : ∀ f ∈ fields, lower f.1 = lower name →
      COLON ∉ f.2 ∧ ¬∃ l, f.1 = l ++ bytes "Connection") :
    Reply.values name sent = Reply.values name fields := by
  induction h with
  | nil => rfl
  | @cons f g fields sent hpatched hrest ih =>
    obtain ⟨hf, hfields⟩ := List.forall_mem_cons.mp hkeep
    have hcons (e : Bytes × Bytes) (l : List (Bytes × Bytes)) : Reply.values name (e :: l) =
        if lower e.1 = lower name then e.2 :: Reply.values name l else Reply.values name l := by
      unfold Reply.values Assoc.under
      by_cases he : lower e.1 = lower name <;> simp [he]
    rw [hcons, hcons, ih hfields, hpatched.name]
    split_ifs with hname
    · obtain ⟨hcolon, hend⟩ := hf hname
      rw [(hpatched.value hcolon).resolve_right hend]
    · rfl

namespace Delimited
variable {r : Response} (h : Delimited r)
include h

theorem fields_token : ∀ f ∈ r.fields, isToken f.1 = true ∧ Clean f.2 := by
  intro f hf
  refine ⟨?_, (h.sound.fields_clean f hf).2.2⟩
  cases Response.mem_fields hf with
  | inl hset => exact (h.names f hset).1
  | inr hdefault =>
    have hall : ∀ name ∈ Response.frameworkNames, isToken name = true := by decide
    exact hall f.1 (List.mem_map_of_mem (f := Prod.fst) hdefault)

/-- The length is there once, and it is the framework's. -/
theorem under_length : Assoc.under lower (lower (bytes "Content-Length")) r.fields =
    [(bytes "Content-Length", toChars r.body.length)] :=
  Assoc.under_of_nodup lower h.sound.fields_distinct
    (Response.mem_fields_contentLength fun f hf => (h.names f hf).2.1)

theorem no_transfer : ∀ f ∈ r.fields, lower f.1 ≠ lower (bytes "Transfer-Encoding") := by
  intro f hf
  cases Response.mem_fields hf with
  | inl hset => exact (h.names f hset).2.2
  | inr hdefault =>
    have hall : ∀ name ∈ Response.frameworkNames,
        lower name ≠ lower (bytes "Transfer-Encoding") := by decide
    exact hall f.1 (List.mem_map_of_mem (f := Prod.fst) hdefault)

/-- What a client takes for the length of the body. -/
theorem bodyLength (headOnly : Bool) {sent : List (Bytes × Bytes)}
    (hsent : List.Forall₂ Patched r.fields sent) {code : ℕ} (hcode : r.code = code) :
    Reply.bodyLength headOnly code (sent.map trimmedField) =
      some (if headOnly then [] else r.body).length := by
  have hdigits := toChars_digits r.body.length
  have hlength : Reply.values (bytes "Content-Length") (sent.map trimmedField) =
      [toChars r.body.length] := by
    have hkeep : ∀ f ∈ r.fields, lower f.1 = lower (bytes "Content-Length") →
        COLON ∉ f.2 ∧ ¬∃ l, f.1 = l ++ bytes "Connection" := by
      intro f hf hname
      have hmem : f ∈ Assoc.under lower (lower (bytes "Content-Length")) r.fields :=
        (Assoc.mem_under_iff lower).mpr ⟨hf, hname⟩
      rw [h.under_length, List.mem_singleton] at hmem
      subst hmem
      refine ⟨fun hcolon => absurd (hdigits.2 _ hcolon) (by decide), ?_⟩
      rintro ⟨l, hl⟩
      have hend : bytes "Connection" <:+ bytes "Content-Length" := ⟨l, hl.symm⟩
      exact absurd hend (by decide)
    have hdigit : ∀ c ∈ toChars r.body.length, isBlank c = false := by
      intro c hc
      have htchar : isTchar c = true := by simp [isTchar, isAlnum, hdigits.2 c hc]
      exact (isTchar_not_blank htchar).1
    have htrim : trim (toChars r.body.length) = toChars r.body.length :=
      trim_eq_self (fun c hc => hdigit c (List.mem_of_mem_head? hc))
        fun c hc => hdigit c (List.mem_of_mem_getLast? hc)
    rw [values_trimmed, values_patched hsent hkeep, Reply.values, h.under_length]
    simp [htrim]
  have htransfer : Reply.values (bytes "Transfer-Encoding") (sent.map trimmedField) = [] := by
    rw [values_trimmed, values_patched hsent fun f hf hname => absurd hname (h.no_transfer f hf),
      Reply.values, (Assoc.under_eq_nil_iff lower).mpr]
    · rfl
    · intro hkey
      obtain ⟨f, hf, hname⟩ := List.mem_map.mp hkey
      exact h.no_transfer f hf hname
  have hlow := h.status.low
  have hbodyless := h.status.bodyless
  rw [hcode] at hlow hbodyless
  unfold Reply.bodyLength
  rw [hlength, htransfer]
  cases headOnly with
  | true => simp
  | false =>
    by_cases hnone : code = 204 ∨ code = 304
    · have hempty := hbodyless (by exact_mod_cast hnone)
      simp [hempty, hnone]
    · have hlow' : ¬code < 200 := by omega
      have hall : (toChars r.body.length).all isDigit = true := List.all_eq_true.mpr hdigits.2
      simp only [Bool.false_eq_true, hlow', hnone, false_or, if_false, ne_eq, not_true_eq_false,
        hdigits.1, not_false_eq_true, hall, true_and, if_true, decimal_toChars]

end Delimited

/-- What `ExecuteRoute` sends, as a client reads it: the code and the fields of the head, and the
body. -/
structure Executed.ReadAs (e : Executed) (reply : Reply) : Prop where
  head : ∃ fields, e.head = headText (Response.statusLine reply.code) fields ∧
    reply.fields = fields.map trimmedField
  body : reply.body = e.body

/-- A delimited response is read back with the fields that are sent, and the client stops where the
next one begins. -/
theorem Delimited.read_sent {r : Response} (h : Delimited r) (requested allow headOnly : Bool)
    (s : Bytes) :
    let head := (settleConnection requested allow r.head).2
    let body := if headOnly then [] else r.body
    ∃ sent, List.Forall₂ Patched r.fields sent ∧
      head = headText (Response.statusLine r.code) sent ∧
      Reply.read headOnly (head ++ body ++ s) =
        some (⟨r.code.toNat, sent.map trimmedField, body⟩, s) := by
  intro head body
  obtain ⟨code, hcode⟩ : ∃ code : ℕ, r.code = code :=
    ⟨r.code.toNat, (Int.toNat_of_nonneg (by have := h.status.low; omega)).symm⟩
  have hlow := h.status.low
  have hhigh := h.status.high
  obtain ⟨sent, hsent, hhead⟩ := settle_fields requested allow r.code fun f hf =>
    isToken_no_colon (h.fields_token f hf).1
  rw [← Response.head_eq] at hhead
  have hfields : ∀ f ∈ sent, isToken f.1 = true ∧ Clean f.2 := by
    intro g hg
    obtain ⟨f, hf, hpatched⟩ := exists_patched hsent hg
    obtain ⟨htoken, hclean⟩ := h.fields_token f hf
    exact ⟨hpatched.name ▸ htoken, hpatched.clean hclean⟩
  refine ⟨sent, hsent, hhead, ?_⟩
  change Reply.read headOnly ((settleConnection requested allow r.head).2 ++ body ++ s) = _
  rw [hhead, hcode, Int.toNat_natCast]
  exact Reply.read_headText (by omega) hfields (h.bodyLength headOnly hsent hcode) s

theorem Delimited.read {r : Response} (h : Delimited r) (requested allow headOnly : Bool)
    (s : Bytes) :
    let e : Executed :=
      ⟨(settleConnection requested allow r.head).2, if headOnly then [] else r.body,
        (settleConnection requested allow r.head).1⟩
    ∃ reply, Reply.read headOnly (e.head ++ e.body ++ s) = some (reply, s) ∧ e.ReadAs reply := by
  intro e
  obtain ⟨sent, -, hhead, hread⟩ := h.read_sent requested allow headOnly s
  refine ⟨_, hread, ⟨sent, ?_, rfl⟩, rfl⟩
  have hcode : (r.code.toNat : ℤ) = r.code := Int.toNat_of_nonneg (by have := h.status.low; omega)
  rw [hcode]
  exact hhead

/-- The values of a name that the patch does not touch are read as they were set. -/
theorem Delimited.values_sent {r : Response} (h : Delimited r) {sent : List (Bytes × Bytes)}
    (hsent : List.Forall₂ Patched r.fields sent) {name : Bytes}
    (hend : ¬lower (bytes "Connection") <:+ lower name)
    (hcolon : ∀ value ∈ Assoc.get lower (lower name) r.fields, COLON ∉ value) :
    Reply.values name (sent.map trimmedField) =
      (Assoc.get lower (lower name) r.fields).toList.map trim := by
  have hvalues := Assoc.under_eq_get lower h.sound.fields_distinct (lower name)
  rw [values_trimmed, values_patched hsent, Reply.values, hvalues]
  intro f hf hname
  have hmem : f.2 ∈ (Assoc.get lower (lower name) r.fields).toList := by
    rw [← hvalues]
    exact List.mem_map_of_mem ((Assoc.mem_under_iff lower).mpr ⟨hf, hname⟩)
  refine ⟨hcolon f.2 (Option.mem_toList.mp hmem), ?_⟩
  rintro ⟨l, hl⟩
  refine hend ⟨lower l, ?_⟩
  rw [← hname, hl]
  exact List.map_append.symm

end Vermell.Router
