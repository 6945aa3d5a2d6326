import Nica.IniStrip
import Nica.StringMap

/-! # The INI parser

`nc_ini_file_parse_full` of `inifile.c` on the bytes of a file.

* **Strings.**  A `char *` that is a key or a value of a map is the string it points to, `none` for
  NULL; it is read off its block when the parser is done with it.
* **Maps.**  Every map has a memory of its own in which all allocations succeed.  The value of a
  section in the root map is the place of its map in `Parser.sections`, as its address.
* **Lines.**  The block that `getline` returns holds the line, a NUL and then `slack`, which differs
  from line to line.
* **Results.**  The fields of an `Outcome` other than the returned value are the out parameters,
  `none` where nothing is stored. -/

namespace Nica

open CString NcHashmap

inductive NcIniError where
  | file
  | emptyKey
  | notClosed
  | noSection
  | invalidLine
  | internal
deriving DecidableEq, Repr

def NcIniError.code : NcIniError → ℤ
  | .file => 1
  | .emptyKey => 2
  | .notClosed => 3
  | .noSection => 4
  | .invalidLine => 5
  | .internal => 6

abbrev Section := State Text Text

/-- The map of maps, with the places of the sections. -/
abbrev Root := State Text (Option ℕ)

theorem newFull_isSome (K V : Type) [Null K] [Null V] (hash : K → UInt32) (compare : K → K → Bool) :
    (newFull (Mem.granting K V) hash compare true true).isSome :=
  Option.isSome_iff_exists.mpr (newInternal_granted (fun _ => rfl) hash compare true true)

def newSection : Section := (newFull _ ncStringHash ncStringCompare true true).get
  (newFull_isSome Text Text ncStringHash ncStringCompare)

/-- A new root map; its `value_free` is `nc_hashmap_free`. -/
def newRoot : Root := (newFull _ ncStringHash ncStringCompare true true).get
  (newFull_isSome Text (Option ℕ) ncStringHash ncStringCompare)

/-- The variables of the line loop; `section_map` is looked up wherever it is used. -/
structure Parser where
  currentSection : Text
  root : Root
  sections : List Section

def mapCall {α : Type} : Except Fault α → Except Stop α
  | .error f => .error (.map f)
  | .ok a => .ok a

/-- How a line is left: `goto next` or `goto fail` with `err_ret`. -/
inductive Jump where
  | next (p : Parser)
  | fail (p : Parser) (err : NcIniError)

/-- A section header: `current_section` is set and its map created unless it exists. -/
def openSection (fuel : ℕ) (p : Parser) (name : Bytes) : Except Stop Parser := do
  match ← mapCall (get fuel p.root (some name)) with
  | some _ => .ok { p with currentSection := some name }
  | none =>
      let (_, root) ← mapCall (put fuel p.root (some name) (some p.sections.length))
      .ok ⟨some name, root, p.sections ++ [newSection]⟩

/-- `key` and `value` of an assignment whose `=` is at `offset`, both chewed. -/
def splitAssignment (buf : Bytes) (offset : ℕ) : Except Stop (Bytes × Bytes) := do
  let value ← inside (strdup buf (offset + 1))
  let buf ← inside (write buf offset 0)
  let key ← inside (strdup buf 0)
  let key ← stringChewTerminated key
  let value ← stringChewTerminated value
  .ok (key, value)

def store (fuel : ℕ) (p : Parser) (key value : Bytes) : Except Stop Jump := do
  match ← mapCall (get fuel p.root p.currentSection) with
  | none => .ok (.fail p .internal)
  | some h =>
      match p.sections[h]? with
      | none => .error (.map .dangling)
      | some sectionMap => do
          let (ok, sectionMap) ← mapCall (put fuel sectionMap (some key) (some value))
          let p := { p with sections := p.sections.set h sectionMap }
          if ok then .ok (.next p) else .ok (.fail p .internal)

def assign (fuel : ℕ) (p : Parser) (buf : Bytes) (offset : ℕ) : Except Stop Jump := do
  let (key, value) ← splitAssignment buf offset
  let isEmpty ← inside (streq key [0])
  if isEmpty then .ok (.fail p .emptyKey)
  else do
    let key ← inside (stringAt key 0)
    let value ← inside (stringAt value 0)
    store fuel p key value

/-- A line that is not a section header: a comment or an assignment. -/
def parseEntry (fuel : ℕ) (p : Parser) (buf : Bytes) (first : UInt8) : Except Stop Jump :=
  if first = 35 ∨ first = 59 then .ok (.next p)
  else do
    match ← inside (strchr 61 buf) with
    | none => .ok (.fail p .invalidLine)
    | some offset =>
        if p.currentSection = none then .ok (.fail p .noSection) else assign fuel p buf offset

def parseHeader (fuel : ℕ) (p : Parser) (buf : Bytes) (strLen : ℕ) : Except Stop Jump := do
  let last ← inside (readBefore buf strLen)
  if last ≠ 93 then .ok (.fail p .notClosed)
  else do
    let buf ← inside (writeBefore buf strLen 0)
    let name ← inside (stringAt buf 1)
    let p ← openSection fuel p name
    .ok (.next p)

/-- The line after `string_strip`. -/
def parseStripped (fuel : ℕ) (p : Parser) (buf : Bytes) (strLen : ℕ) : Except Stop Jump := do
  let isEmpty ← inside (streq buf [0])
  if isEmpty then .ok (.next p)
  else do
    let first ← inside buf[0]?
    if first = 91 then parseHeader fuel p buf strLen else parseEntry fuel p buf first

def fixNewline (buf : Bytes) (r : ℕ) : Option (Bytes × ℕ) := do
  let last ← readBefore buf r
  if last = 10 then do
    let buf ← writeBefore buf r 0
    some (buf, r - 1)
  else some (buf, r)

/-- The body of the line loop, on the line `raw` that `getline` has read. -/
def parseLine (fuel : ℕ) (p : Parser) (raw slack : Bytes) : Except Stop Jump := do
  let (buf, r) ← inside (fixNewline (raw ++ 0 :: slack) raw.length)
  let (buf, strLen) ← inside (stringStrip buf r)
  parseStripped fuel p buf strLen

/-- The line loop from line `line_count` on: the parser at its end and, if a line failed, its error
and its number. -/
def parseLines (fuel : ℕ) (slack : ℕ → Bytes) :
    List Bytes → ℕ → Parser → Except Stop (Parser × Option (NcIniError × ℕ))
  | [], _, p => .ok (p, none)
  | raw :: raws, lineCount, p => do
      match ← parseLine fuel p raw (slack lineCount) with
      | .next p => do
          let lineCount ← incr .lineCount lineCount
          parseLines fuel slack raws lineCount p
      | .fail p err => .ok (p, some (err, lineCount))

/-- What `getline` returns, call by call: the lines with their newlines. -/
def rawLines : Bytes → List Bytes
  | [] => []
  | c :: content =>
      if c = 10 then [c] :: rawLines content
      else
        match rawLines content with
        | [] => [[c]]
        | raw :: raws => (c :: raw) :: raws

/-- The section maps are freed as the root map calls its `value_free`. -/
def freeSections (fuel : ℕ) (sections : List Section) :
    List (FreeCall Text (Option ℕ)) → Except Stop Unit
  | [] => .ok ()
  | .value (some h) :: calls =>
      match sections[h]? with
      | none => .error (.map .dangling)
      | some sectionMap => do
          let _ ← mapCall (free fuel sectionMap)
          freeSections fuel sections calls
  | _ :: calls => freeSections fuel sections calls

def freeRoot (fuel : ℕ) (p : Parser) : Except Stop Unit := do
  let m ← mapCall (free fuel p.root)
  freeSections fuel p.sections (m.log.drop p.root.mem.log.length)

structure IniMap where
  root : Root
  sections : List Section

/-- The returned value and what is stored in `*out_map` and in `*error_line_number`. -/
structure Outcome where
  ret : ℤ
  outMap : Option IniMap
  errorLine : Option ℕ

def finish (fuel : ℕ) (errorLineNumber : Bool) (p : Parser) :
    Option (NcIniError × ℕ) → Except Stop Outcome
  | none => .ok ⟨0, some ⟨p.root, p.sections⟩, none⟩
  | some (err, lineCount) => do
      freeRoot fuel p
      .ok ⟨-err.code, none, if errorLineNumber then some lineCount else none⟩

/-- `nc_ini_file_parse_full` on the content of the file, `none` if it cannot be opened; `outMap` and
`errorLineNumber` say whether these pointers are given. -/
def ncIniFileParseFull (fuel : ℕ) (slack : ℕ → Bytes) (file : Option Bytes)
    (outMap errorLineNumber : Bool) : Except Stop Outcome :=
  match file with
  | none => .ok ⟨-NcIniError.file.code, none, none⟩
  | some content =>
      if outMap = false then .ok ⟨-1, none, none⟩
      else do
        let (p, failed) ← parseLines fuel slack (rawLines content) 1 ⟨none, newRoot, []⟩
        finish fuel errorLineNumber p failed

end Nica
