/-
Module: Bunx.Url.UrlParse
Purpose: Taking a URL apart, as the code does it: protocol, credentials, host, and what stands
  behind the host.
Trusted boundary: a build with overflow checks, where a 32-bit offset that does not fit panics
Main exports:
  indexOfChar, trim, URL, URL.parseProtocol, URL.parseUsername, URL.parsePassword, URL.parseHost,
  URL.front, URL.behind, parse
-/
import Bunx.Url.QueryString

namespace Bunx.Url

def slash : UInt8 := 0x2f
def colon : UInt8 := 0x3a
def atSign : UInt8 := 0x40
def numberSign : UInt8 := 0x23
def openBracket : UInt8 := 0x5b
def closeBracket : UInt8 := 0x5d

def u32Max : Nat := 2 ^ 32 - 1

/-- A checked 32-bit value: nothing where it does not fit, which is a panic. -/
def u32 (n : Nat) : Option Nat := if n ≤ u32Max then some n else none

/-- `strings::index_of_char`, whose cast wraps. -/
def indexOfChar (slice : Bytes) (char : UInt8) : Option Nat :=
  (slice.idxOf? char).map (· % 2 ^ 32)

def trimLeft (s chars : Bytes) : Bytes := s.dropWhile chars.contains

def trimRight (s chars : Bytes) : Bytes := (s.reverse.dropWhile chars.contains).reverse

def trim (s chars : Bytes) : Bytes := trimRight (trimLeft s chars) chars

structure URL where
  hash : Bytes := []
  /-- The host name with the port. -/
  host : Bytes := []
  hostname : Bytes := []
  href : Bytes := []
  origin : Bytes := []
  password : Bytes := []
  pathname : Bytes := [slash]
  path : Bytes := [slash]
  port : Bytes := []
  protocol : Bytes := []
  search : Bytes := []
  username : Bytes := []
deriving Repr, DecidableEq

/-! ### Protocol and credentials -/

/-- The loop of `parse_protocol`: the index of the colon in front of two slashes. -/
def protocolEnd : Bytes → Option Nat
  | [] => none
  | c :: rest =>
      if c = slash ∨ c = questionMark ∨ c = percent then none
      else if c = colon ∧ rest.take 2 = [slash, slash] then some 0
      else (protocolEnd rest).map (· + 1)

/-- The loops of `parse_username` and `parse_password`: the index of the first byte that ends the
part, unless a slash or a question mark stands before it. -/
def partEnd (ends : UInt8 → Bool) : Bytes → Option Nat
  | [] => none
  | c :: rest =>
      if ends c then some 0
      else if c = questionMark ∨ c = slash then none
      else (partEnd ends rest).map (· + 1)

namespace URL

def parseProtocol (url : URL) (str : Bytes) : Option (URL × Option Nat) :=
  match protocolEnd str with
  | none => some (url, none)
  | some i => do
      let n ← u32 (i + 3)
      some ({ url with protocol := str.take i }, some n)

def parseUsername (url : URL) (str : Bytes) : Option (URL × Option Nat) :=
  match partEnd (fun c => c = colon || c = atSign) str with
  | none => some ({ url with username := [] }, none)
  | some i => do
      let n ← u32 (i + 1)
      some ({ url with username := str.take i }, some n)

def parsePassword (url : URL) (str : Bytes) : Option (URL × Option Nat) :=
  match partEnd (· = atSign) str with
  | none => some ({ url with password := [] }, none)
  | some i => do
      let n ← u32 (i + 1)
      some ({ url with password := str.take i }, some n)

end URL

/-! ### The host -/

structure HostScan where
  i : Nat
  ipv6I : Option Nat := none
  colonI : Option Nat := none
deriving Repr, DecidableEq

/-- The loop over a host in brackets, behind the opening bracket. -/
def scanIpv6 (scan : HostScan) : Bytes → HostScan
  | [] => scan
  | c :: rest =>
      let ipv6I := if scan.ipv6I.isNone ∧ c = closeBracket then some scan.i else scan.ipv6I
      let colonI :=
        if ipv6I.isSome ∧ scan.colonI.isNone ∧ c = colon then some scan.i else scan.colonI
      if c = questionMark ∨ c = slash then { scan with ipv6I, colonI }
      else scanIpv6 { i := scan.i + 1, ipv6I, colonI } rest

/-- The loop over any other host. -/
def scanHost (scan : HostScan) : Bytes → HostScan
  | [] => scan
  | c :: rest =>
      let colonI := if scan.colonI.isNone ∧ c = colon then some scan.i else scan.colonI
      if c = questionMark ∨ c = slash then { scan with colonI }
      else scanHost { scan with i := scan.i + 1, colonI } rest

namespace URL

def parseHost (url : URL) (str : Bytes) : Option (URL × Nat) :=
  if str.head? = some openBracket then do
    let scan := scanIpv6 { i := 1 } (str.drop 1)
    let i ← u32 scan.i
    let hostname :=
      match scan.ipv6I with
      | some ipv6 => str.take (ipv6 + 1)
      | none => []
    let port :=
      match scan.colonI with
      | some colon => (str.take i).drop (colon + 1)
      | none => []
    some ({ url with host := str.take i, hostname, port }, i)
  else do
    let scan := scanHost { i := 0 } str
    let i ← u32 scan.i
    match scan.colonI with
    | some colon =>
        some ({ url with
          host := str.take i
          hostname := str.take colon
          port := (str.take i).drop (colon + 1) }, i)
    | none => some ({ url with host := str.take i, hostname := str.take i, port := [] }, i)

/-! ### In front of the path -/

/-- Username and password, where an `@` stands behind the first colon and before the first
slash. -/
def credentials (url : URL) (base : Bytes) (offset : Nat) : Option (URL × Nat) :=
  let rest := base.drop offset
  let firstAt := (indexOfChar rest atSign).getD 0
  let firstColon := (indexOfChar rest colon).getD 0
  if 0 < offset ∧ firstColon < firstAt ∧ firstAt < (indexOfChar rest slash).getD u32Max then do
    let (url, n) ← url.parseUsername rest
    let offset ← u32 (offset + n.getD 0)
    let (url, m) ← url.parsePassword (base.drop offset)
    let offset ← u32 (offset + m.getD 0)
    some (url, offset)
  else some (url, offset)

def isFirstByte (c : UInt8) : Bool :=
  c == slash || (0x61 ≤ c && c ≤ 0x7a) || (0x41 ≤ c && c ≤ 0x5a) || (0x30 ≤ c && c ≤ 0x39) ||
    c == 0x2d || c == 0x5f || c == colon

/-- The match on the first byte of the text. -/
def front (url : URL) (base : Bytes) (first : UInt8) : Option (URL × Nat) :=
  if first = atSign then do
    let (url, n) ← url.parsePassword base
    let offset := n.getD 0
    let (url, m) ← url.parseHost (base.drop offset)
    let offset ← u32 (offset + m)
    some (url, offset)
  else if isFirstByte first then do
    let isProtocolRelative := base[1]? == some slash
    let (url, offset) ←
      if isProtocolRelative then some (url, 1)
      else (url.parseProtocol base).map fun (url, n) => (url, n.getD 0)
    if !isProtocolRelative && first == slash then some (url, offset)
    else do
      let (url, offset) ← url.credentials base offset
      let (url, m) ← url.parseHost (base.drop offset)
      let offset ← u32 (offset + m)
      some (url, offset)
  else some (url, 0)

/-! ### From the path on -/

/-- The view, the offset it has been read to, and where a fragment begins. -/
structure Reading where
  url : URL
  offset : Nat
  canUpdatePath : Bool := true
  hashOffset : Nat := u32Max
deriving Repr, DecidableEq

/-- The search part, from the first question mark on. -/
def readSearch (url : URL) (base : Bytes) (offset : Nat) : Option Reading :=
  match indexOfChar (base.drop offset) questionMark with
  | none => some { url, offset }
  | some q => do
      let found ← u32 (offset + q)
      let url := { url with path := (base.drop offset).take q, search := base.drop found }
      some { url, offset := found, canUpdatePath := false }

/-- The fragment, looked for behind the offset. -/
def readHash (reading : Reading) (base : Bytes) (pathOffset : Nat) : Option Reading :=
  match indexOfChar (base.drop reading.offset) numberSign with
  | none => some reading
  | some h => do
      let found ← u32 (reading.offset + h)
      let url := reading.url
      let path := if reading.canUpdatePath then (base.drop pathOffset).take h else url.path
      let hash := base.drop found
      let search :=
        if url.search ≠ [] then url.search.take (url.search.length - hash.length)
        else url.search
      some { reading with
        url := { url with path, hash, search }
        offset := found
        hashOffset := found }

/-- The path name up to the fragment, and the origin. -/
def setPathname (reading : Reading) (base : Bytes) (pathOffset : Nat) : URL :=
  let url := reading.url
  if base[pathOffset]? = some slash ∧ 0 < reading.offset then
    let pathname :=
      if url.search ≠ [] then
        (base.take (min (min (reading.offset + url.search.length) base.length)
          reading.hashOffset)).drop pathOffset
      else if reading.hashOffset < u32Max then (base.take reading.hashOffset).drop pathOffset
      else url.pathname
    { url with pathname, origin := base.take pathOffset }
  else url

/-- The path with one slash in front. -/
def trimPath (path : Bytes) (hashOffset : Nat) : Bytes :=
  if path.length > 1 ∧ (trim path [slash]).length > 1 then
    let ptrDiff := path.length - (trimLeft path [slash]).length
    path.drop (min (max ptrDiff 1 - 1) hashOffset)
  else [slash]

/-- The loop that drops slashes in front until one is left. -/
def mergeSlashes : Bytes → Bytes
  | c :: d :: rest => if c = slash ∧ d = slash then mergeSlashes (d :: rest) else c :: d :: rest
  | short => short

/-- What `parse` does behind the host. -/
def behind (url : URL) (base : Bytes) (offset : Nat) : Option URL :=
  let url := { url with origin := base.take offset }
  if offset > base.length then some url
  else do
    let rest := base.drop offset
    let url :=
      if rest.length > 1 ∧ rest.head? = some slash then { url with path := rest, pathname := rest }
      else url
    let reading ← readSearch url base offset
    let reading ← readHash reading base offset
    let url := setPathname reading base offset
    let pathname := if url.pathname = [] then [slash] else url.pathname
    some { url with
      path := trimPath url.path reading.hashOffset
      pathname := mergeSlashes pathname
      origin := trim url.origin [slash, 0x20, questionMark, numberSign] }

end URL

def parse (base : Bytes) : Option URL :=
  match base with
  | [] => some {}
  | first :: _ => do
      let (url, offset) ← URL.front { href := base } base first
      url.behind base offset

end Bunx.Url
