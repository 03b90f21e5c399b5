import Vermell.Http.Framing
import Vermell.Text.Lines

/-! Route keys, and parameterized routes matched by segments. -/
namespace Vermell.Router
open Http

def STAR : UInt8 := 42
def PERCENT : UInt8 := 37

/-- The separator of a route key, a byte that no request target and no method contains. -/
def KEY_SEPARATOR : UInt8 := 0x1f

def routeKey (path method : Bytes) : Bytes := path ++ KEY_SEPARATOR :: method

def isPatternRoute (path : Bytes) : Bool := path.contains COLON || path.contains STAR

/-- The non-empty segments of a path. -/
def splitPath (path : Bytes) : List Bytes := (path.splitOn SLASH).filter fun seg => seg ≠ []

/-- `percent_decode`: an escape that is cut off or malformed stays as it is. -/
def percentDecode : Bytes → Bytes
  | c :: h :: l :: tail =>
    match hexValue h, hexValue l with
    | some hi, some lo =>
      if c = PERCENT then (hi*16 + lo).toUInt8 :: percentDecode tail
      else c :: percentDecode (h :: l :: tail)
    | _, _ => c :: percentDecode (h :: l :: tail)
  | c :: rest => c :: percentDecode rest
  | [] => []

/-- `match_pattern`: the captured parameters, `none` where the pattern does not match. A `*` takes
the rest of the path, whatever stands behind it in the pattern. -/
def matchPattern : List Bytes → List Bytes → Option (List (Bytes × Bytes))
  | [], [] => some []
  | [], _ :: _ => none
  | seg :: pattern, path =>
    if seg = [STAR] then some [([STAR], percentDecode ([SLASH].intercalate path))]
    else
      match path with
      | [] => none
      | part :: path =>
        if seg.length > 1 ∧ seg.head? = some COLON then
          (matchPattern pattern path).map ((seg.tail, percentDecode part) :: ·)
        else if seg ≠ part then none
        else matchPattern pattern path

/-- Two keys agree only for one path and one method, where one of the paths and its method come from
a request. -/
theorem routeKey_inj {path method path' method' : Bytes} (hpath : KEY_SEPARATOR ∉ path)
    (hmethod : KEY_SEPARATOR ∉ method) (h : routeKey path' method' = routeKey path method) :
    path' = path ∧ method' = method := by
  have hcount := congrArg (List.count KEY_SEPARATOR) h
  simp only [routeKey, List.count_append, List.count_cons_self, List.count_eq_zero.mpr hpath,
    List.count_eq_zero.mpr hmethod] at hcount
  have hpath' : KEY_SEPARATOR ∉ path' := List.count_eq_zero.mp (by omega)
  exact Text.append_cons_inj hpath' hpath h

end Vermell.Router
