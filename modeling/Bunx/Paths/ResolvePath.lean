/-
Module: Bunx.Paths.ResolvePath
Purpose: Common directories, joining and normalising, and relative paths, as the code
  computes them for `/`-separated paths.
Trusted boundary: paths are shorter than `usize::MAX`; the allocator serves every request.
Main exports:
  Platform, longestCommonPath, getIfExistsLongestCommonPath, normalizeStringGeneric,
  joinAbsStringBuf, joinAbsStringBufChecked, relativeNormalizedBuf
-/
import Mathlib.Algebra.Ring.Int.Defs
import Mathlib.Algebra.Ring.Nat

namespace Bunx.Paths

abbrev Bytes := List UInt8

/-- `SEP_POSIX`. -/
def sepPosix : UInt8 := 0x2f

/-- `.`. -/
def dot : UInt8 := 0x2e

/-- The platforms whose separator is `/`. -/
inductive Platform where
  | loose
  | posix
deriving Repr, DecidableEq

namespace Platform

def isSeparator : Platform → UInt8 → Bool
  | loose, c => c == sepPosix || c == 0x5c
  | posix, c => c == sepPosix

/-- Both platforms write `/`. -/
def separator (_ : Platform) : UInt8 := sepPosix

def separatorString (p : Platform) : Bytes := [p.separator]

end Platform

/-! ### Common directories -/

/-- How the scan over the inputs ends. -/
inductive Scan where
  | found (index : Nat) (lastCommonSeparator : Option Nat)
  | returnsNone
  | panics
deriving Repr, DecidableEq

section

variable (p : Platform)

/-- Whether the inputs differ in a byte. -/
def nqlAtIndex (index : Nat) : List Bytes → Bool
  | [] => false
  | first :: rest => rest.any fun s => first[index]? != s[index]?

/-- `usize::MAX`, where the minimum starts, is above the length of every path. -/
def minLength : List Bytes → Nat
  | [] => 2 ^ 64 - 1
  | first :: rest => rest.foldl (fun least s => min s.length least) first.length

/-- A separator at an index, or what was recorded before. -/
def recordSeparator (first : Bytes) (index : Nat) (last : Option Nat) : Option Nat :=
  if (first[index]?).any p.isSeparator then some index else last

/-- The loop for two to eight inputs; `fuel` is what is left up to the least length. -/
def scanFew (input : List Bytes) (first : Bytes) : Nat → Nat → Option Nat → Scan
  | 0, index, last => .found index last
  | fuel + 1, index, last =>
      if nqlAtIndex index input then
        match last with
        | none => .returnsNone
        | some last => .found index (some last)
      else scanFew input first fuel (index + 1) (recordSeparator p first index last)

/-- The inner loop for more than eight inputs. -/
def advance (first s : Bytes) : Nat → Nat → Nat
  | 0, index => index
  | fuel + 1, index =>
      if first[index]? = s[index]? then advance first s fuel (index + 1) else index

/-- The loop for more than eight inputs: `index` is not set back between them. -/
def scanMany (first : Bytes) (least : Nat) : List Bytes → Nat → Option Nat → Scan
  | [], index, last => .found index last
  | s :: rest, index, last =>
      let stop := advance first s (least - index) index
      if stop < least ∧ last = none then .returnsNone
      else if stop = least then
        if least = 0 then .panics
        else scanMany first least rest (least - 1) (recordSeparator p first (least - 1) last)
      else scanMany first least rest stop (recordSeparator p first stop last)

/-- The scan of either function; `last` is what it starts from. -/
def scan (input : List Bytes) (first : Bytes) (last : Option Nat) : Scan :=
  if input.length ≤ 8 then scanFew p input first (minLength input) 0 last
  else scanMany p first (minLength input) input.tail 0 last

/-- The last of the inputs that go on with a separator, if none goes on otherwise. -/
def separatorAfter (index : Nat) : List Bytes → Option Bytes → Option Bytes
  | [], found => found
  | s :: rest, found =>
      match s[index]? with
      | none => separatorAfter index rest found
      | some c => if p.isSeparator c then separatorAfter index rest (some s) else none

/-- `none` is a panic; the scan cannot return `None` here. -/
def longestCommonPathGeneric : List Bytes → Option Bytes
  | [] => some []
  | [only] => some only
  | first :: rest =>
      match scan p (first :: rest) first (some 0) with
      | .found index last =>
          if index = 0 then some p.separatorString
          else
            match separatorAfter p index (first :: rest) none with
            | some s => some (s.take (index + 1))
            | none => last.map fun last => first.take (last + 1)
      | _ => none

/-- The outer `none` is a panic. -/
def getIfExistsLongestCommonPathGeneric : List Bytes → Option (Option Bytes)
  | [] => some (some [])
  | [only] => some (some only)
  | first :: rest =>
      match scan p (first :: rest) first none with
      | .found index last =>
          if index = 0 then some (some p.separatorString)
          else
            match last with
            | none => some (some [dot])
            | some last =>
                -- the first input with a separator there, whatever the others have
                match (first :: rest).find? fun s => (s[index]?).any p.isSeparator with
                | some s => some (some (s.take (index + 1)))
                | none => some (some (first.take (last + 1)))
      | .returnsNone => some none
      | .panics => none

end

def longestCommonPath (input : List Bytes) : Option Bytes :=
  longestCommonPathGeneric .loose input

def getIfExistsLongestCommonPath (input : List Bytes) : Option (Option Bytes) :=
  getIfExistsLongestCommonPathGeneric .loose input

/-! ### Buffers -/

/-- Write behind what a buffer of `cap` bytes holds; `none` is the panic where it is full. -/
def put (cap : Nat) (out chunk : Bytes) : Option Bytes :=
  if out.length + chunk.length ≤ cap then some (out ++ chunk) else none

/-! ### Normalising -/

section

variable (isSeparator : UInt8 → Bool)

/-- Whether an element ends here. -/
def atEnd : Bytes → Bool
  | [] => true
  | c :: _ => isSeparator c

/-- The write cursor goes back to the last separator, or to the floor. -/
def backTo (out : Bytes) (dotdot : Nat) : Nat → Nat
  | 0 => 0
  | bufI + 1 =>
      if bufI + 1 > dotdot ∧ !(out[bufI + 1]?).any isSeparator then backTo out dotdot bufI
      else bufI + 1

/-- The loop over `path[r..]`, `out` the bytes up to the write cursor; each turn consumes a
byte, so the length of the path is fuel enough. -/
def normalizeLoop (allowAboveRoot : Bool) (cap : Nat) (separator : UInt8) :
    Nat → Bytes → Bytes → Nat → Option Bytes
  | 0, _, out, _ => some out
  | _, [], out, _ => some out
  | fuel + 1, c :: rest, out, dotdot =>
      let loop := normalizeLoop allowAboveRoot cap separator fuel
      if isSeparator c then loop rest out dotdot
      else if c = dot ∧ atEnd isSeparator rest then loop rest out dotdot
      else if c = dot ∧ rest.head? = some dot ∧ atEnd isSeparator rest.tail then
        -- remove to the last separator
        if out.length > dotdot then
          loop rest.tail (out.take (backTo isSeparator out dotdot (out.length - 1))) dotdot
        else if allowAboveRoot then do
          let out ← put cap out (if out.length > 0 then [separator, dot, dot] else [dot, dot])
          loop rest.tail out out.length
        else loop rest.tail out dotdot
      else do
        let out ←
          if out ≠ [] ∧ !(out.getLast?).any isSeparator then put cap out [separator] else some out
        let out ← put cap out ((c :: rest).takeWhile fun b => !isSeparator b)
        loop ((c :: rest).dropWhile fun b => !isSeparator b) out dotdot

def normalizeStringGeneric (allowAboveRoot preserveTrailingSlash : Bool) (path : Bytes)
    (cap : Nat) (separator : UInt8) : Option Bytes := do
  let out ← normalizeLoop isSeparator allowAboveRoot cap separator path.length path [] 0
  if preserveTrailingSlash ∧ out ≠ [] ∧ path.getLast? = some separator ∧
      out.getLast? ≠ some separator then
    put cap out [separator]
  else return out

end

/-- `normalize_string_buf` for the two platforms: both take `\` for a separator. -/
def normalizeStringBuf (allowAboveRoot preserveTrailingSlash : Bool) (str : Bytes)
    (cap : Nat) : Option Bytes :=
  normalizeStringGeneric Platform.loose.isSeparator allowAboveRoot preserveTrailingSlash str
    cap sepPosix

/-! ### Joining -/

/-- `MAX_PATH_BYTES` on Linux. -/
def maxPathBytes : Nat := 4096

/-- `is_absolute` on POSIX. -/
def isAbsolute (path : Bytes) : Bool := path.head? = some sepPosix

/-- The size of the scratch for the text before it is normalised. -/
def joinTotal (base : Nat) (parts : List Bytes) : Nat :=
  base + 2 + (parts.map fun part => part.length + 1).sum

/-- What `JoinScratch` holds: a pooled path buffer, or as much as is needed. -/
def scratchSize (base : Nat) (parts : List Bytes) : Nat :=
  if joinTotal base parts ≤ maxPathBytes then maxPathBytes else joinTotal base parts

/-- The loop that starts over behind each absolute part; `part_len` has 16 bits.  It looks
at each part once, so their number is fuel enough. -/
def lastAbsolute : Nat → Nat → Bytes → List Bytes → Bytes × List Bytes
  | 0, _, cwd, parts => (cwd, parts)
  | fuel + 1, partI, cwd, parts =>
      if partI < parts.length % 2 ^ 16 then
        match parts[partI]? with
        | some part =>
            if isAbsolute part then lastAbsolute fuel 0 part (parts.drop (partI + 1))
            else lastAbsolute fuel (partI + 1) cwd parts
        | none => (cwd, parts)
      else (cwd, parts)

/-- The parts behind one another, with a separator between them. -/
def appendParts (cap : Nat) : Bytes → List Bytes → Option Bytes
  | out, [] => some out
  | out, part :: parts =>
      if part = [] then appendParts cap out parts
      else do
        let out ←
          if out ≠ [] ∧ out.getLast? ≠ some sepPosix then put cap out [sepPosix] else some out
        let out ← put cap out part
        appendParts cap out parts

/-- `_join_abs_string_buf::<false, Posix>` into a buffer of `cap` bytes. -/
def joinAbsStringBuf (cap : Nat) (cwd : Bytes) (parts : List Bytes) : Option Bytes :=
  if parts = [] then some cwd
  else if parts = [[sepPosix]] then put cap [] [sepPosix]
  else do
    let (cwd, parts) := lastAbsolute (parts.length + 1) 0 cwd parts
    let scratch := scratchSize cwd.length parts
    let text ← put scratch [] cwd
    let text ← appendParts scratch text parts
    -- a separator is made up where the first byte is none
    let leading ← put cap [] [sepPosix]
    if text = [] then none
    else
      let result ← normalizeStringBuf false true (text.drop 1) (cap - leading.length)
      return leading ++ result

/-- The inner `none` is a result that does not fit the buffer. -/
def joinAbsStringBufChecked (cap : Nat) (cwd : Bytes) (parts : List Bytes) :
    Option (Option Bytes) := do
  let total := joinTotal cwd.length parts
  if total < cap then
    let joined ← joinAbsStringBuf cap cwd parts
    return some joined
  else
    let joined ← joinAbsStringBuf total cwd parts
    return if joined.length > cap then none else some joined

/-! ### Relative paths -/

section

variable (p : Platform)

/-- The loop that writes a `..` for each segment of `from` behind the common directory;
`fuel` is what is left of `from`. -/
def writeDotdots (cap : Nat) (normalizedFrom : Bytes) : Nat → Nat → Bytes → Option Bytes
  | 0, _, out => some out
  | fuel + 1, i, out =>
      if i = normalizedFrom.length ∨
          (normalizedFrom[i]? = some p.separator ∧ i + 1 < normalizedFrom.length) then do
        let out ← put cap out (if out = [] then [dot, dot] else [p.separator, dot, dot])
        writeDotdots cap normalizedFrom fuel (i + 1) out
      else writeDotdots cap normalizedFrom fuel (i + 1) out

/-- `last_index_of_char_t`. -/
def lastIndexOf (s : Bytes) (c : UInt8) : Option Nat :=
  (s.reverse.findIdx? (· == c)).map fun fromEnd => s.length - 1 - fromEnd

/-- What of `to` follows the last common separator, without that where `from` ends there. -/
def tailOf (normalizedFrom normalizedTo : Bytes) (lastCommonSeparator : Nat) : Bytes :=
  let tail := normalizedTo.drop lastCommonSeparator
  if normalizedFrom ≠ [] ∧ (lastCommonSeparator = normalizedFrom.length ∨
      lastCommonSeparator = normalizedFrom.length - 1) ∧
      (tail.head?).any p.isSeparator then tail.drop 1
  else tail

def appendTail (cap : Nat) (out tail : Bytes) : Option Bytes := do
  -- avoid making non-absolute paths absolute
  let insertLeadingSlash := !(tail.head?).any p.isSeparator && out.length > 0 &&
    !(out.getLast?).any p.isSeparator
  let out ← if insertLeadingSlash then put cap out [p.separator] else some out
  put cap out tail

/-- `relative_to_common_path` into a buffer of `cap` bytes. -/
def relativeToCommonPath (alwaysCopy : Bool) (cap : Nat)
    (commonPath_ normalizedFrom normalizedTo : Bytes) : Option Bytes :=
  let copied (slice : Bytes) : Option Bytes := if alwaysCopy then put cap [] slice else some slice
  let commonPath := if isAbsolute commonPath_ then commonPath_.drop 1 else commonPath_
  let isBase : Bool := min normalizedFrom.length normalizedTo.length = commonPath.length ∧
    normalizedTo.length ≥ normalizedFrom.length
  if isBase ∧ commonPath = [] then copied normalizedTo
  else if isBase ∧ normalizedTo[commonPath.length - 1]? = some p.separator then
    copied (normalizedTo.drop commonPath.length)
  else do
    let lastCommonSeparator := (lastIndexOf commonPath_ p.separator).getD 0
    let out ←
      if normalizedFrom ≠ [] then
        let i := (if (normalizedFrom.head?).any p.isSeparator then 1 else 0) + 1 +
          lastCommonSeparator
        writeDotdots p cap normalizedFrom (normalizedFrom.length + 1 - i) i []
      else some []
    let out ←
      if normalizedTo.length > lastCommonSeparator + 1 then
        appendTail p cap out (tailOf p normalizedFrom normalizedTo lastCommonSeparator)
      else some out
    if out.length > 3 ∧ out.getLast? = some p.separator then return out.dropLast
    else return out

def relativeNormalizedBuf (alwaysCopy : Bool) (cap : Nat) (from_ to_ : Bytes) :
    Option Bytes :=
  if from_ = to_ then some []
  else do
    let commonPath ← longestCommonPathGeneric p [from_, to_]
    relativeToCommonPath p alwaysCopy cap commonPath from_ to_

end

/-- `dirname::<Posix>`; each turn takes a byte off. -/
def dirnameLoop : Nat → Bytes → Bytes
  | 0, _ => []
  | fuel + 1, str =>
      match lastIndexOf str sepPosix with
      | none => []
      | some separator =>
          if separator = 0 then [sepPosix]
          else if separator = str.length - 1 then dirnameLoop fuel (str.take (str.length - 1))
          else str.take separator

def dirname (str : Bytes) : Bytes := dirnameLoop (str.length + 1) str

/-- A path as `relative_platform_buf` takes it, from the top-level directory on. -/
def normalizedAbsolute (topLevelDir : Bytes) (cap : Nat) (path : Bytes) : Option Bytes :=
  if isAbsolute path then
    (normalizeStringBuf true true path (cap - 1)).map (sepPosix :: ·)
  else do
    let normalized ← normalizeStringBuf true true path cap
    joinAbsStringBuf cap topLevelDir [normalized]

/-- `relative_platform_buf::<Posix>`, all of its buffers of `cap` bytes. -/
def relativePlatformBuf (topLevelDir : Bytes) (alwaysCopy : Bool) (cap : Nat)
    (from_ to_ : Bytes) : Option Bytes := do
  let normalizedFrom ← normalizedAbsolute topLevelDir cap from_
  let normalizedTo ← normalizedAbsolute topLevelDir cap to_
  relativeNormalizedBuf .posix alwaysCopy cap normalizedFrom normalizedTo

end Bunx.Paths
