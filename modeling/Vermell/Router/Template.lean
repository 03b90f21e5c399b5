import Vermell.Router.DataRender
import Vermell.Text.Search

/-! Templates: texts whose `[[` and `]]` take turns, cut into their markers and what stands between
them. -/
namespace Vermell.Router
open Http Text

/-- The bracket whose pair is next: an opening one outside of a marker, a closing one inside. -/
def bracket (inside : Bool) : UInt8 := if inside then CLOSE_BRACKET else OPEN_BRACKET

/-- The pairs of brackets in a text take turns. Pairs may overlap. -/
def alternates : Bool → Bytes → Bool
  | inside, a :: b :: s =>
    if a = bracket inside ∧ b = bracket inside then alternates (!inside) (b :: s)
    else if a = bracket (!inside) ∧ b = bracket (!inside) then false
    else alternates inside (b :: s)
  | _, _ => true

/-- A text without a pair of this bracket. -/
def NoPair (c : UInt8) (s : Bytes) : Prop := s.IsChain fun a b => ¬(a = c ∧ b = c)

/-- The text in front of the first marker, and each marker's name with the text behind it. -/
def cutMarkers (s : Bytes) : Bytes × List (Bytes × Bytes) :=
  match _h : find OPEN_DATA s with
  | none => (s, [])
  | some opening =>
    match find CLOSE_DATA (s.drop (opening + 2)) with
    | none => (s, [])
    | some closing =>
      let rest := cutMarkers ((s.drop (opening + 2)).drop (closing + 2))
      (s.take opening, ((s.drop (opening + 2)).take closing, rest.1) :: rest.2)
  termination_by s.length
  decreasing_by
    have hin := occurs_length (List.cons_ne_nil _ _) ((find_eq_some_iff _ _ _).mp _h).2.1
    simp only [List.length_drop, List.length_cons, List.length_nil] at hin ⊢
    omega

theorem cutMarkers_of_none {s : Bytes} (h : find OPEN_DATA s = none) :
    cutMarkers s = (s, []) := by
  rw [cutMarkers]
  split
  · rfl
  · rename_i opening hopening
    rw [h] at hopening
    cases hopening

theorem cutMarkers_of_find {s : Bytes} (opening closing : ℕ)
    (hopening : find OPEN_DATA s = some opening)
    (hclosing : find CLOSE_DATA (s.drop (opening + 2)) = some closing) :
    cutMarkers s = (s.take opening, ((s.drop (opening + 2)).take closing,
      (cutMarkers ((s.drop (opening + 2)).drop (closing + 2))).1) ::
        (cutMarkers ((s.drop (opening + 2)).drop (closing + 2))).2) := by
  rw [cutMarkers]
  split
  · rename_i hnone
    rw [hopening] at hnone
    cases hnone
  · rename_i opening' hopening'
    obtain rfl := Option.some.inj (hopening.symm.trans hopening')
    rw [hclosing]

def writeMarkers (markers : List (Bytes × Bytes)) : Bytes :=
  markers.flatMap fun marker => OPEN_DATA ++ marker.1 ++ CLOSE_DATA ++ marker.2

theorem cutMarkers_write (s : Bytes) :
    (cutMarkers s).1 ++ writeMarkers (cutMarkers s).2 = s := by
  fun_induction cutMarkers s with
  | case1 s hnone => simp [writeMarkers]
  | case2 s opening hopening hnone => simp [writeMarkers]
  | case3 s opening hopening closing hclosing rest ih =>
    rw [writeMarkers, List.flatMap_cons]
    change s.take opening ++ (OPEN_DATA ++ (s.drop (opening + 2)).take closing ++ CLOSE_DATA ++
      rest.1 ++ writeMarkers rest.2) = s
    rw [List.append_assoc _ rest.1, ih]
    calc s.take opening ++ (OPEN_DATA ++ (s.drop (opening + 2)).take closing ++ CLOSE_DATA ++
          (s.drop (opening + 2)).drop (closing + 2))
        = s.take opening ++ (OPEN_DATA ++ ((s.drop (opening + 2)).take closing ++ (CLOSE_DATA ++
            (s.drop (opening + 2)).drop (closing + 2)))) := by simp
      _ = s.take opening ++ (OPEN_DATA ++ s.drop (opening + 2)) :=
          congrArg (fun t => s.take opening ++ (OPEN_DATA ++ t)) (find_split hclosing).symm
      _ = s := (find_split hopening).symm

theorem head?_of_cutMarkers {s : Bytes} {c : UInt8} (h : (cutMarkers s).1.head? = some c) :
    s.head? = some c := by
  have hwrite := congrArg List.head? (cutMarkers_write s)
  rw [List.head?_append, h] at hwrite
  exact hwrite.symm

/-- What a pass needs of a marker: its brackets are the only pairs in it, and the text behind it
brings no closing. -/
structure PlainMarker (marker : Bytes × Bytes) : Prop where
  noOpen : NoPair OPEN_BRACKET (OPEN_BRACKET :: marker.1 ++ [CLOSE_BRACKET])
  noClose : NoPair CLOSE_BRACKET (OPEN_BRACKET :: marker.1 ++ [CLOSE_BRACKET])
  behind : NoPair CLOSE_BRACKET (CLOSE_BRACKET :: marker.2)

theorem noPair_of_alternates {inside : Bool} {s : Bytes} (h : alternates inside s = true)
    (hs : NoPair (bracket inside) s) : NoPair (bracket (!inside)) s := by
  unfold NoPair at hs ⊢
  induction s with
  | nil => exact List.IsChain.nil
  | cons a s ih =>
    cases s with
    | nil => exact List.IsChain.singleton a
    | cons b s =>
      rw [List.isChain_cons_cons] at hs ⊢
      rw [alternates, if_neg hs.1] at h
      split_ifs at h with hother
      exact ⟨hother, ih h hs.2⟩

/-- In front of the first pair of the bracket that is next there is no pair, and behind it the other
one is next. -/
theorem alternates_first (inside : Bool) {u v : Bytes}
    (h : alternates inside (u ++ bracket inside :: bracket inside :: v) = true)
    (hu : NoPair (bracket inside) (u ++ [bracket inside])) :
    NoPair (bracket (!inside)) (u ++ [bracket inside]) ∧
      alternates (!inside) (bracket inside :: v) = true := by
  unfold NoPair at hu ⊢
  induction u with
  | nil =>
    rw [List.nil_append, alternates, if_pos ⟨rfl, rfl⟩] at h
    exact ⟨List.IsChain.singleton _, h⟩
  | cons a u ih =>
    obtain ⟨b, w, hw⟩ := List.exists_cons_of_ne_nil (List.append_ne_nil_of_right_ne_nil u
      (List.cons_ne_nil (bracket inside) []))
    have hsplit : u ++ bracket inside :: bracket inside :: v =
        u ++ [bracket inside] ++ bracket inside :: v := by simp
    rw [hsplit, hw, List.cons_append] at ih
    rw [List.cons_append, hw, List.isChain_cons_cons] at hu
    rw [List.cons_append, hsplit, hw, List.cons_append, alternates, if_neg hu.1] at h
    rw [List.cons_append, hw, List.isChain_cons_cons]
    split_ifs at h with hother
    obtain ⟨hfree, hnext⟩ := ih h hu.2
    exact ⟨⟨hother, hfree⟩, hnext⟩

theorem alternates_tail {s : Bytes} (h : alternates false (CLOSE_BRACKET :: s) = true) :
    s.head? ≠ some CLOSE_BRACKET ∧ alternates false s = true := by
  cases s with
  | nil => exact ⟨by simp, rfl⟩
  | cons b s =>
    rw [alternates, if_neg (by simp [bracket, OPEN_BRACKET, CLOSE_BRACKET])] at h
    split_ifs at h with hclose
    exact ⟨by simpa [bracket] using hclose, h⟩

theorem NoPair.cons {c a : UInt8} (hne : a ≠ c) {s : Bytes} (hs : NoPair c s) :
    NoPair c (a :: s) :=
  List.isChain_cons.mpr ⟨fun _ _ h => hne h.1, hs⟩

/-- A template is cut into markers that the passes can tell apart. -/
theorem cutMarkers_plain {s : Bytes} (h : alternates false s = true) :
    NoPair CLOSE_BRACKET (cutMarkers s).1 ∧ ∀ marker ∈ (cutMarkers s).2, PlainMarker marker := by
  have hne : OPEN_BRACKET ≠ CLOSE_BRACKET := by decide
  have hfirst {s : Bytes} {opening : ℕ} (hopening : find OPEN_DATA s = some opening)
      (h : alternates false s = true) :
      NoPair CLOSE_BRACKET (s.take opening ++ [OPEN_BRACKET]) ∧
        alternates true (OPEN_BRACKET :: s.drop (opening + 2)) = true := by
    rw [find_split hopening] at h
    exact alternates_first false h (isChain_of_find_pair hopening)
  fun_induction cutMarkers s with
  | case1 s hnone =>
    exact ⟨noPair_of_alternates h (find_pair_eq_none_iff.mp hnone), by simp⟩
  | case2 s opening hopening hnone =>
    have hbehind : NoPair CLOSE_BRACKET (s.drop (opening + 2)) := find_pair_eq_none_iff.mp hnone
    have hpair : NoPair CLOSE_BRACKET (s.take opening ++ OPEN_BRACKET :: OPEN_BRACKET ::
        s.drop (opening + 2)) :=
      List.isChain_split.mpr ⟨(hfirst hopening h).1, (hbehind.cons hne).cons hne⟩
    refine ⟨?_, by simp⟩
    rw [find_split hopening]
    exact hpair
  | case3 s opening hopening closing hclosing rest ih =>
    obtain ⟨hhead, hinside⟩ := hfirst hopening h
    have hname : NoPair CLOSE_BRACKET
        (OPEN_BRACKET :: (s.drop (opening + 2)).take closing ++ [CLOSE_BRACKET]) :=
      NoPair.cons hne (isChain_of_find_pair hclosing)
    rw [find_split hclosing] at hinside
    obtain ⟨hopen, houtside⟩ := alternates_first true
      (u := OPEN_BRACKET :: (s.drop (opening + 2)).take closing) hinside hname
    obtain ⟨hnot, hrest⟩ := alternates_tail houtside
    obtain ⟨hfree, hplain⟩ := ih hrest
    refine ⟨hhead.left_of_append, List.forall_mem_cons.mpr ⟨⟨hopen, hname, ?_⟩, hplain⟩⟩
    refine List.isChain_cons.mpr ⟨fun c hc heq => hnot ?_, hfree⟩
    have hstart : rest.1.head? = some c := hc
    rw [← heq.2]
    exact head?_of_cutMarkers hstart

end Vermell.Router
