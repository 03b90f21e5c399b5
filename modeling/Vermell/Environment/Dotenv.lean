import Vermell.Assoc
import Vermell.Http.Chars
import Vermell.Text.Lines
import Vermell.Text.Search

/-! `parse_env`: the keys and values of a `.env` file. -/
namespace Vermell.Environment
open Http Text

def HASH : UInt8 := 35
def APOSTROPHE : UInt8 := 39
def EXPORT : Bytes := bytes "export "

def isBlank (c : UInt8) : Bool := c == SP || c == HTAB

def trim (str : Bytes) : Bytes := (str.dropWhile isBlank).rdropWhile isBlank

def isQuoted (quote : UInt8) (value : Bytes) : Prop :=
  value.head? = some quote ∧ value.getLast? = some quote

instance (quote : UInt8) (value : Bytes) : Decidable (isQuoted quote value) :=
  inferInstanceAs (Decidable (_ ∧ _))

/-- The text right of the equals sign, without its quotes or else without a comment. -/
def unquote (value : Bytes) : Bytes :=
  if 2 ≤ value.length ∧ (isQuoted QUOTE value ∨ isQuoted APOSTROPHE value) then
    (value.drop 1).take (value.length - 2)
  else
    match find [SP, HASH] value with
    | none => value
    | some hash => trim (value.take hash)

/-- One round of the loop of `parse_env`, with `none` where it goes on to the next line. -/
def parseLine (line : Bytes) : Option (Bytes × Bytes) :=
  let line := trim (stripCr line)
  if line = [] ∨ line.head? = some HASH then none
  else
    let line := if EXPORT.isPrefixOf line then trim (line.drop 7) else line
    match line.idxOf? EQUALS with
    | none => none
    | some eq =>
      let key := trim (line.take eq)
      let value := trim (line.drop (eq + 1))
      if key = [] then none else some (key, unquote value)

/-- A line end as the last byte leaves an empty line, which is skipped. -/
def parseEnv (contents : Bytes) : List (Bytes × Bytes) :=
  Assoc.putAll id ((contents.splitOn LF).filterMap parseLine) []

theorem nodup_keys_parseEnv (contents : Bytes) : (Assoc.keys id (parseEnv contents)).Nodup :=
  Assoc.nodup_keys_putAll id List.nodup_nil

end Vermell.Environment
