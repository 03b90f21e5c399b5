import Vermell.Router.DataRender

/-! The markup of a rendered page: no variable adds to it. -/
namespace Vermell.Router
open Http

/-- The characters that open a tag, close it or quote an attribute. -/
def isMarkup (c : UInt8) : Bool := c = 60 || c = 62 || c = QUOTE || c = 39

/-- The markup of a text, in its order. -/
def markup (s : Bytes) : Bytes := s.filter isMarkup

theorem markup_append (s t : Bytes) : markup (s ++ t) = markup s ++ markup t :=
  List.filter_append s t

theorem markup_escapeByte (c : UInt8) : markup (escapeByte c) = [] := by
  unfold escapeByte
  split_ifs with hand hlt hgt hquote happ hshown
  · decide
  · decide
  · decide
  · decide
  · decide
  · -- what stays as it is has been told apart from every markup character
    simp [markup, isMarkup, hlt, hgt, hquote, happ]
  · rfl

/-- An escaped text has no markup at all. -/
theorem markup_escapeHtml (s : Bytes) : markup (escapeHtml s) = [] := by
  induction s with
  | nil => rfl
  | cons c s ih =>
    change markup (escapeByte c ++ escapeHtml s) = []
    rw [markup_append, markup_escapeByte, ih, List.append_nil]

theorem findMarker_ordered {body : Bytes} {opening closing : ℕ}
    (h : findMarker body = .found opening closing) : opening ≤ closing := by
  unfold findMarker at h
  split at h
  · cases h
  · split_ifs at h with hordered
    cases h
    exact Nat.le_of_not_lt hordered
  · cases h

/-- The error page closes a marker that it never opens. -/
theorem bodyTratament_noSafeData (vars : Variables) :
    bodyTratament vars noSafeData = noSafeData := by
  have herror : findMarker noSafeData = .unclosed := by decide +kernel
  unfold bodyTratament
  rw [herror]

/-- One pass: the brackets that it finds may come from the template, from a value or from both. -/
theorem markup_bodyTratament (vars : Variables) (body : Bytes) :
    bodyTratament vars body = noSafeData ∨
      (markup (bodyTratament vars body)).Sublist (markup body) := by
  unfold bodyTratament
  cases hfind : findMarker body with
  | absent => exact .inr (List.Sublist.refl _)
  | unclosed => exact .inl rfl
  | found opening closing =>
    right
    have hdrop : (body.drop (closing + 2)).Sublist (body.drop opening) :=
      List.drop_sublist_drop_left body ((findMarker_ordered hfind).trans (Nat.le_add_right _ 2))
    have hrest : (body.take opening ++ body.drop (closing + 2)).Sublist body := by
      conv_rhs => rw [← List.take_append_drop opening body]
      exact hdrop.append_left _
    simp only [markup_append, markup_escapeHtml, List.append_nil]
    rw [← markup_append]
    exact hrest.filter isMarkup

theorem renderPasses_noSafeData (vars : Variables) (n : ℕ) :
    renderPasses vars n noSafeData = noSafeData := by
  induction n with
  | zero => rfl
  | succ n ih => rw [renderPasses, bodyTratament_noSafeData, ih]

/-- All passes. A pass that fails is the last one with an effect. -/
theorem markup_renderPasses (vars : Variables) (n : ℕ) (body : Bytes) :
    renderPasses vars n body = noSafeData ∨
      (markup (renderPasses vars n body)).Sublist (markup body) := by
  induction n generalizing body with
  | zero => exact .inr (List.Sublist.refl _)
  | succ n ih =>
    rw [renderPasses]
    cases markup_bodyTratament vars body with
    | inl herror =>
      rw [herror]
      exact .inl (renderPasses_noSafeData vars n)
    | inr hpass =>
      cases ih (bodyTratament vars body) with
      | inl herror => exact .inl herror
      | inr hrest => exact .inr (hrest.trans hpass)

/-- A rendered template is the error page, or its markup is part of the template's, whatever the
values are. -/
theorem render_markup (disk : Disk) (sec : RenderSecurity) (vars : Variables) (path : Bytes)
    (hwithin : disk.isWithin (effectiveRoot sec) path = true)
    (hread : (disk.readBounded path sec.maxFileBytes).err = .ok) :
    render disk sec vars path = noSafeData ∨
      (markup (render disk sec vars path)).Sublist
        (markup (disk.readBounded path sec.maxFileBytes).data) := by
  have hrender : render disk sec vars path =
      renderPasses vars vars.length (disk.readBounded path sec.maxFileBytes).data := by
    simp [render, renderBody, hwithin, hread]
  rw [hrender]
  exact markup_renderPasses vars vars.length _

/-- A disk whose files are all `<[[x]]>`. -/
def markedDisk : Disk where
  isDirectory _ := false
  regular _ := none
  readBounded _ _ := ⟨.ok, bytes "<[[x]]>"⟩
  isWithin _ _ := true

theorem render_markup_value :
    render markedDisk {} [(bytes "x", bytes "<b>")] (bytes "page") = noSafeData ∨
      (markup (render markedDisk {} [(bytes "x", bytes "<b>")] (bytes "page"))).Sublist
        (markup (markedDisk.readBounded (bytes "page") ({} : RenderSecurity).maxFileBytes).data) :=
  render_markup markedDisk {} [(bytes "x", bytes "<b>")] (bytes "page") rfl rfl

end Vermell.Router
