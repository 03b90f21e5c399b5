import Vermell.Http.Numerals
import Vermell.Router.StaticMount
import Vermell.Text.Search

/-! The guards of file rendering over the calls of the operating system: bounded reads, the jail
and the names of modules. -/
namespace Vermell.Router
open Http Text

/-- What one call of `read` answers. -/
inductive ReadCall
  | interrupted
  | failed
  | chunk (data : Bytes)

/-- An open file: whether `fstat` finds a regular one, with its size, and what `read` answers call
after call. Behind the last answer is the end of the file. -/
structure OpenFile where
  stat : Option (Bool × ℤ)
  reads : List ReadCall

/-- The answers of the operating system. -/
structure FileSystem where
  isDirectory : Bytes → Bool
  /-- Size and modification time where `stat` succeeds on a regular file. -/
  regular : Bytes → Option (ℤ × ℤ)
  /-- `open`, which follows no symbolic link at the end of the path. -/
  openFile : Bytes → Option OpenFile
  /-- The components of `weakly_canonical(absolute(path))`, where neither fails. -/
  canonical : Bytes → Option (List Bytes)

/-- `c_str` as a system call sees it. -/
def cString (path : Bytes) : Bytes := path.takeWhile (· ≠ 0)

/-- `static_cast<off_t>` -/
def offT (n : ℕ) : ℤ := (BitVec.ofNat 64 n).toInt

/-- The loop of `read_bounded`, with what has been read. -/
def readLoop (maxBytes : ℕ) (out : Bytes) : List ReadCall → ReadResult
  | [] => ⟨.ok, out⟩
  | .interrupted :: rest => readLoop maxBytes out rest
  | .failed :: _ => ⟨.ioError, []⟩
  | .chunk data :: rest =>
    if data = [] then ⟨.ok, out⟩
    else if out.length + data.length > maxBytes then ⟨.tooLarge, []⟩
    else readLoop maxBytes (out ++ data) rest

namespace FileSystem
variable (fs : FileSystem)

/-- `read_bounded` -/
def readBounded (path : Bytes) (maxBytes : ℕ) : ReadResult :=
  match fs.openFile (cString path) with
  | none => ⟨.notFound, []⟩
  | some file =>
    match file.stat with
    | none => ⟨.ioError, []⟩
    | some (isRegular, size) =>
      if !isRegular then ⟨.forbidden, []⟩
      else if size > offT maxBytes then ⟨.tooLarge, []⟩
      else readLoop maxBytes [] file.reads

/-- `is_within` -/
def isWithin (base target : Bytes) : Bool :=
  if base = [] ∨ target = [] then false
  else
    match fs.canonical base, fs.canonical target with
    | some cb, some ct => cb ≠ [] && ct ≠ [] && cb.isPrefixOf ct
    | _, _ => false

def disk : Disk where
  isDirectory := fs.isDirectory
  regular := fs.regular
  readBounded := fs.readBounded
  isWithin := fs.isWithin

end FileSystem

theorem readLoop_length (maxBytes : ℕ) (out : Bytes) (hout : out.length ≤ maxBytes)
    (reads : List ReadCall) : (readLoop maxBytes out reads).data.length ≤ maxBytes := by
  induction reads generalizing out with
  | nil => exact hout
  | cons call rest ih =>
    cases call with
    | interrupted => exact ih out hout
    | failed => exact Nat.zero_le maxBytes
    | chunk data =>
      rw [readLoop]
      split_ifs with hend hlarge
      · exact hout
      · exact Nat.zero_le maxBytes
      · refine ih (out ++ data) ?_
        rw [List.length_append]
        exact Nat.le_of_not_lt hlarge

/-- A file that grows while it is read is cut off at the limit as well. -/
theorem FileSystem.readBounded_length (fs : FileSystem) (path : Bytes) (maxBytes : ℕ) :
    (fs.readBounded path maxBytes).data.length ≤ maxBytes := by
  unfold FileSystem.readBounded
  cases fs.openFile (cString path) with
  | none => exact Nat.zero_le maxBytes
  | some file =>
    obtain ⟨stat, reads⟩ := file
    cases stat with
    | none => exact Nat.zero_le maxBytes
    | some found =>
      obtain ⟨isRegular, size⟩ := found
      dsimp only
      split_ifs with hkind hsize
      · exact Nat.zero_le maxBytes
      · exact Nat.zero_le maxBytes
      · exact readLoop_length maxBytes [] (Nat.zero_le maxBytes) reads

/-- A path without a NUL reaches the system call whole. -/
theorem cString_eq_self {path : Bytes} (h : (0 : UInt8) ∉ path) : cString path = path := by
  refine List.takeWhile_eq_self_iff.mpr ?_
  intro c hc
  have hne : c ≠ 0 := fun h0 => h (h0 ▸ hc)
  simpa using hne

def UNDERSCORE : UInt8 := 95

/-- A character of a module's name. -/
def isNameByte (c : UInt8) : Bool :=
  isLower c || isUpper c || isDigit c || c == DOT || c == UNDERSCORE || c == MINUS

/-- `valid_include_name` -/
def validIncludeName (name : Bytes) : Bool :=
  if name = [] ∨ name.length > 255 then false
  else if name = [DOT] ∨ name = [DOT, DOT] then false
  else if !name.all isNameByte then false
  else (find [DOT, DOT] name).isNone

theorem validIncludeName_sound {name : Bytes} (h : validIncludeName name = true) :
    name ≠ [] ∧ (∀ c ∈ name, isNameByte c = true) ∧ ¬[DOT, DOT] <:+: name := by
  unfold validIncludeName at h
  split_ifs at h with hlength hdots hchars
  have hall : name.all isNameByte = true := by simpa using hchars
  exact ⟨fun hempty => hlength (.inl hempty), List.all_eq_true.mp hall,
    (find_isNone_iff _ _).mp h⟩

end Vermell.Router
