import Vermell.Router.SecureRender

/-! `read_bounded` on a file that stays as it is: the cap of the two comparisons, one with the size
of the file and one with what has been read. -/
namespace Vermell.Router
open Http

/-- The buffer of `read_bounded`. -/
def CHUNK : ℕ := 16384

/-- What `read` answers on a file with this text left: full and short reads, with interruptions. -/
inductive ReadsAll : Bytes → List ReadCall → Prop
  | done : ReadsAll [] []
  | atEnd (calls : List ReadCall) : ReadsAll [] (.chunk [] :: calls)
  | interrupted {s : Bytes} {calls : List ReadCall} (rest : ReadsAll s calls) :
    ReadsAll s (.interrupted :: calls)
  | chunk {data s : Bytes} {calls : List ReadCall} (some : data ≠ []) (fits : data.length ≤ CHUNK)
    (rest : ReadsAll s calls) : ReadsAll (data ++ s) (.chunk data :: calls)

/-- A regular file, whose size is an `off_t`, with this content from `open` to the last `read`. -/
structure FileSystem.Unchanged (fs : FileSystem) (path content : Bytes) : Prop where
  small : content.length < 2^63
  opened : ∃ calls, ReadsAll content calls ∧
    fs.openFile (cString path) = some ⟨some (true, content.length), calls⟩

/-- The cap as it is meant: the whole file, or the error. -/
def FileSystem.CapsAt (fs : FileSystem) (path content : Bytes) (maxBytes : ℕ) : Prop :=
  (fs.readBounded path maxBytes = ⟨.ok, content⟩ ↔ content.length ≤ maxBytes) ∧
    (maxBytes < content.length → fs.readBounded path maxBytes = ⟨.tooLarge, []⟩)

/-- The loop reads a file to its end, whatever its pieces are. -/
theorem readLoop_readsAll {maxBytes : ℕ} {out s : Bytes} {calls : List ReadCall}
    (h : ReadsAll s calls) (hfits : out.length + s.length ≤ maxBytes) :
    readLoop maxBytes out calls = ⟨.ok, out ++ s⟩ := by
  induction h generalizing out with
  | done => simp [readLoop]
  | atEnd calls => simp [readLoop]
  | interrupted rest ih => exact ih hfits
  | chunk hsome _ rest ih =>
    rw [List.length_append] at hfits
    rw [readLoop, if_neg hsome, if_neg (by omega), ih, List.append_assoc]
    rw [List.length_append]
    omega

/-- The conversion keeps a limit below `2^63` and makes any other one negative. -/
theorem offT_toNat (n : UInt64) :
    offT n.toNat = if n.toNat < 2^63 then (n.toNat : ℤ) else n.toNat - 2^64 := by
  have hlt := n.toNat_lt
  unfold offT
  rw [BitVec.toInt_eq_toNat_cond, BitVec.toNat_ofNat, Nat.mod_eq_of_lt hlt]
  split_ifs <;> omega

theorem offT_neg {n : UInt64} (h : ¬n.toNat < 2^63) : offT n.toNat < 0 := by
  have hlt := n.toNat_lt
  rw [offT_toNat, if_neg h]
  omega

section
variable {fs : FileSystem} {path content : Bytes} (h : fs.Unchanged path content)
include h

/-- Both comparisons are with the limit itself. -/
theorem readBounded_small {maxBytes : UInt64} (hsmall : maxBytes.toNat < 2^63) :
    fs.readBounded path maxBytes.toNat =
      if content.length ≤ maxBytes.toNat then ⟨.ok, content⟩ else ⟨.tooLarge, []⟩ := by
  obtain ⟨calls, hreads, hopened⟩ := h.opened
  have hcompare : (content.length : ℤ) > offT maxBytes.toNat ↔
      ¬content.length ≤ maxBytes.toNat := by
    rw [offT_toNat, if_pos hsmall]
    omega
  simp only [FileSystem.readBounded, hopened, hcompare, Bool.not_true, Bool.false_eq_true, if_false]
  by_cases hfits : content.length ≤ maxBytes.toNat
  · have hread : readLoop maxBytes.toNat [] calls = ⟨.ok, [] ++ content⟩ :=
      readLoop_readsAll hreads (by simpa using hfits)
    simp [hfits, hread]
  · simp [hfits]

/-- A limit that turns negative refuses every file. -/
theorem readBounded_large {maxBytes : UInt64} (hlarge : ¬maxBytes.toNat < 2^63) :
    fs.readBounded path maxBytes.toNat = ⟨.tooLarge, []⟩ := by
  obtain ⟨calls, -, hopened⟩ := h.opened
  have hneg := offT_neg hlarge
  have hcompare : (content.length : ℤ) > offT maxBytes.toNat := by omega
  simp [FileSystem.readBounded, hopened, hcompare]

/-- The cap is exact for a limit below `2^63` and for no other, and no read returns more than the
limit, whatever happens to the file. -/
theorem readBounded_cap (maxBytes : UInt64) :
    (fs.CapsAt path content maxBytes.toNat ↔ maxBytes.toNat < 2^63) ∧
      ∀ (fs' : FileSystem) (path' : Bytes),
        (fs'.readBounded path' maxBytes.toNat).data.length ≤ maxBytes.toNat := by
  refine ⟨?_, fun fs' path' => fs'.readBounded_length path' maxBytes.toNat⟩
  constructor
  · intro hcaps
    by_contra hlarge
    have hsmall := h.small
    have hread := hcaps.1.mpr (by omega)
    rw [readBounded_large h hlarge] at hread
    cases congrArg ReadResult.err hread
  · intro hsmall
    unfold FileSystem.CapsAt
    rw [readBounded_small h hsmall]
    split_ifs with hfits
    · exact ⟨iff_of_true rfl hfits, fun hlt => absurd hlt (Nat.not_lt.mpr hfits)⟩
    · refine ⟨iff_of_false ?_ hfits, fun _ => rfl⟩
      intro hread
      cases congrArg ReadResult.err hread

end

/-- A file of two bytes, read one by one with an interruption in between. -/
def twoBytes : FileSystem where
  isDirectory _ := false
  regular _ := none
  openFile _ := some ⟨some (true, 2), [.chunk [1], .interrupted, .chunk [2]]⟩
  canonical _ := none

theorem unchanged_twoBytes (path : Bytes) : twoBytes.Unchanged path [1, 2] where
  small := by decide
  opened := ⟨_, .chunk (List.cons_ne_nil 1 []) (by decide)
    (.interrupted (.chunk (List.cons_ne_nil 2 []) (by decide) .done)), rfl⟩

theorem readBounded_cap_two : (twoBytes.CapsAt [1] [1, 2] 2 ↔ 2 < 2^63) ∧
    ∀ (fs' : FileSystem) (path' : Bytes), (fs'.readBounded path' 2).data.length ≤ 2 :=
  readBounded_cap (unchanged_twoBytes [1]) 2

/-- The largest `size_t` as a limit refuses the file. -/
theorem readBounded_unlimited :
    twoBytes.Unchanged [1] [1, 2] ∧ ¬twoBytes.CapsAt [1] [1, 2] (2^64 - 1) := by
  refine ⟨unchanged_twoBytes [1], ?_⟩
  intro hcaps
  have hread := hcaps.1.mpr (by decide)
  cases congrArg ReadResult.err hread

end Vermell.Router
