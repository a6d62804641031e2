/-
Module: Bunx.Url.UrlText
Purpose: The serialised form of a URL, and what the scans of the parser find in such a text.
Trusted boundary: none
Main exports:
  Credentials, Host, UrlText, UrlText.text, indexOfChar_append, partEnd_append, protocolEnd_scheme,
  parseHost_authority
-/
import Bunx.Url.UrlParse

namespace Bunx.Url

/-! ### The form -/

/-- A byte that neither ends nor separates a part of the authority. -/
def IsPlain (c : UInt8) : Prop :=
  c ≠ slash ∧ c ≠ questionMark ∧ c ≠ numberSign ∧ c ≠ atSign ∧ c ≠ colon

instance (c : UInt8) : Decidable (IsPlain c) := inferInstanceAs (Decidable (_ ∧ _))

def isLetter (c : UInt8) : Bool := (0x61 ≤ c && c ≤ 0x7a) || (0x41 ≤ c && c ≤ 0x5a)

/-- What follows the first letter of a scheme: a letter, a digit, `+`, `-` or `.`. -/
def isSchemeByte (c : UInt8) : Bool :=
  isLetter c || (0x30 ≤ c && c ≤ 0x39) || c == 0x2b || c == 0x2d || c == 0x2e

structure Credentials where
  user : Bytes
  password : Option Bytes
  userPlain : ∀ c ∈ user, IsPlain c
  passwordPlain : ∀ p, password = some p → ∀ c ∈ p, IsPlain c

/-- The password behind its colon, then the `@`. -/
def Credentials.behindUser (password : Option Bytes) : Bytes :=
  match password with
  | some p => colon :: p ++ [atSign]
  | none => [atSign]

def Credentials.text (c : Credentials) : Bytes := c.user ++ behindUser c.password

/-- A name, or an address in brackets. -/
inductive Host where
  | name (bytes : Bytes) (plain : ∀ c ∈ bytes, IsPlain c)
      (unbracketed : bytes.head? ≠ some openBracket)
  | ipv6 (address : Bytes) (plain : ∀ c ∈ address, c = colon ∨ IsPlain c)
      (unclosed : closeBracket ∉ address)

def Host.text : Host → Bytes
  | .name bytes _ _ => bytes
  | .ipv6 address _ _ => openBracket :: address ++ [closeBracket]

/-- An optional part behind its mark. -/
def marked (mark : UInt8) : Option Bytes → Bytes
  | some part => mark :: part
  | none => []

structure UrlText where
  letter : UInt8
  schemeRest : Bytes
  credentials : Option Credentials
  host : Host
  port : Option Bytes
  pathRest : Bytes
  query : Option Bytes
  fragment : Option Bytes
  isLetter : isLetter letter = true
  schemeBytes : ∀ c ∈ schemeRest, isSchemeByte c = true
  portPlain : ∀ p, port = some p → ∀ c ∈ p, IsPlain c
  pathFree : ∀ c ∈ pathRest, c ≠ questionMark ∧ c ≠ numberSign
  queryFree : ∀ q, query = some q → numberSign ∉ q

namespace UrlText

variable (u : UrlText)

def scheme : Bytes := u.letter :: u.schemeRest

def credentialsText : Bytes :=
  match u.credentials with
  | some c => c.text
  | none => []

/-- The host and, behind a colon, the port. -/
def authority : Bytes := u.host.text ++ marked colon u.port

def path : Bytes := slash :: u.pathRest

def search : Bytes := marked questionMark u.query

def hash : Bytes := marked numberSign u.fragment

def tail : Bytes := u.path ++ (u.search ++ u.hash)

/-- What stands in front of the credentials. -/
def opening : Bytes := u.scheme ++ [colon, slash, slash]

def text : Bytes := u.opening ++ (u.credentialsText ++ (u.authority ++ u.tail))

end UrlText

/-! ### Scans -/

theorem IsPlain.notEnd {c : UInt8} (plain : IsPlain c) : ¬ (c = questionMark ∨ c = slash) := by
  rintro (rfl | rfl)
  · exact plain.2.1 rfl
  · exact plain.1 rfl

section

variable {a b : Bytes} {c : UInt8}

theorem idxOf?_append (missing : c ∉ a) : (a ++ c :: b).idxOf? c = some a.length := by
  induction a with
  | nil => rw [List.nil_append, List.idxOf?_cons, beq_self_eq_true, if_pos rfl, List.length_nil]
  | cons d a ih =>
      have other : (d == c) = false :=
        beq_eq_false_iff_ne.mpr fun same => missing (same ▸ List.mem_cons_self)
      rw [List.cons_append, List.idxOf?_cons, other,
        ih fun member => missing (List.mem_cons_of_mem d member)]
      rfl

/-- A byte that does not stand in front is found at its place. -/
theorem indexOfChar_append (missing : c ∉ a) (small : a.length ≤ u32Max) :
    indexOfChar (a ++ c :: b) c = some a.length := by
  rw [indexOfChar, idxOf?_append missing, Option.map_some,
    Nat.mod_eq_of_lt (Nat.lt_of_le_of_lt small (by decide))]

theorem indexOfChar_none (missing : c ∉ a) : indexOfChar a c = none := by
  rw [indexOfChar, List.idxOf?_eq_none_iff.mpr missing]
  rfl

/-- Behind bytes without it, a byte is found no earlier than they end. -/
theorem indexOfChar_behind (missing : c ∉ a) (small : (a ++ b).length ≤ u32Max) {i : Nat}
    (found : indexOfChar (a ++ b) c = some i) : a.length ≤ i := by
  by_cases member : c ∈ b
  · obtain ⟨front, rest, same, isFirst⟩ := List.eq_append_cons_of_mem member
    have missingBefore : c ∉ a ++ front := by simp [missing, isFirst]
    rw [same] at small found
    simp only [List.length_append] at small
    rw [← List.append_assoc, indexOfChar_append missingBefore (by simp; omega),
      Option.some.injEq, List.length_append] at found
    omega
  · rw [indexOfChar_none (by simp [missing, member])] at found
    cases found

/-- A byte behind some that lack it is found behind them. -/
theorem indexOfChar_member (missing : c ∉ a) (member : c ∈ b)
    (small : (a ++ b).length ≤ u32Max) : ∃ i, indexOfChar (a ++ b) c = some i ∧ a.length ≤ i := by
  cases found : indexOfChar (a ++ b) c with
  | some i => exact ⟨i, rfl, indexOfChar_behind missing small found⟩
  | none =>
      rw [indexOfChar, Option.map_eq_none_iff, List.idxOf?_eq_none_iff] at found
      exact absurd (List.mem_append_right a member) found

theorem partEnd_append {ends : UInt8 → Bool} (isEnd : ends c = true)
    (noEnd : ∀ d ∈ a, ends d = false ∧ ¬ (d = questionMark ∨ d = slash)) :
    partEnd ends (a ++ c :: b) = some a.length := by
  induction a with
  | nil => simp [partEnd, isEnd]
  | cons d a ih =>
      obtain ⟨goesOn, notStop⟩ := noEnd d List.mem_cons_self
      rw [List.cons_append, partEnd, goesOn, if_neg (by decide), if_neg notStop,
        ih fun e member => noEnd e (List.mem_cons_of_mem d member)]
      rfl

/-- A slash in front of every end hides the part. -/
theorem partEnd_hidden {ends : UInt8 → Bool} (notEnd : ends slash = false)
    (noEnd : ∀ d ∈ a, ends d = false) : partEnd ends (a ++ slash :: b) = none := by
  induction a with
  | nil => simp [partEnd, notEnd]
  | cons d a ih =>
      rw [List.cons_append, partEnd, noEnd d List.mem_cons_self, if_neg (by decide),
        ih fun e member => noEnd e (List.mem_cons_of_mem d member)]
      split
      · rfl
      · rfl

theorem protocolEnd_append
    (noStop : ∀ d ∈ a, d ≠ slash ∧ d ≠ questionMark ∧ d ≠ percent ∧ d ≠ colon) :
    protocolEnd (a ++ ([colon, slash, slash] ++ b)) = some a.length := by
  induction a with
  | nil => rfl
  | cons d a ih =>
      obtain ⟨noSlash, noMark, noPercent, noColon⟩ := noStop d List.mem_cons_self
      rw [List.cons_append, protocolEnd, if_neg (by simp [noSlash, noMark, noPercent]),
        if_neg (by simp [noColon]),
        ih fun e member => noStop e (List.mem_cons_of_mem d member)]
      rfl

/-! ### The host -/

theorem scanHost_run {scan : HostScan} (noStop : ∀ d ∈ a, ¬ (d = questionMark ∨ d = slash))
    (noColon : scan.colonI.isSome ∨ colon ∉ a) :
    scanHost scan (a ++ b) = scanHost { scan with i := scan.i + a.length } b := by
  induction a generalizing scan with
  | nil => rfl
  | cons d a ih =>
      have keeps : (if scan.colonI.isNone ∧ d = colon then some scan.i else scan.colonI) =
          scan.colonI := by
        refine if_neg fun both => ?_
        rcases noColon with isSet | missing
        · rw [Option.isSome_iff_ne_none] at isSet
          exact isSet (Option.isNone_iff_eq_none.mp both.1)
        · exact missing (both.2 ▸ List.mem_cons_self)
      rw [List.cons_append, scanHost, if_neg (noStop d List.mem_cons_self), keeps]
      refine (@ih { scan with i := scan.i + 1 }
        (fun e member => noStop e (List.mem_cons_of_mem d member))
        (noColon.imp_right fun missing member => missing (List.mem_cons_of_mem d member))).trans ?_
      rw [List.length_cons, Nat.add_comm a.length 1, ← Nat.add_assoc]

theorem scanHost_slash (scan : HostScan) : scanHost scan (slash :: b) = scan := by
  rw [scanHost, if_pos (.inr rfl), if_neg fun both => absurd both.2 (by decide)]

theorem scanHost_colon {scan : HostScan} (unset : scan.colonI = none) :
    scanHost scan (colon :: b) =
      scanHost { scan with i := scan.i + 1, colonI := some scan.i } b := by
  rw [scanHost, if_neg (by decide), if_pos ⟨by rw [unset]; rfl, rfl⟩]

theorem scanIpv6_run {scan : HostScan} (noStop : ∀ d ∈ a, ¬ (d = questionMark ∨ d = slash))
    (noBracket : scan.ipv6I.isSome ∨ closeBracket ∉ a)
    (noColon : scan.ipv6I = none ∨ scan.colonI.isSome ∨ colon ∉ a) :
    scanIpv6 scan (a ++ b) = scanIpv6 { scan with i := scan.i + a.length } b := by
  induction a generalizing scan with
  | nil => rfl
  | cons d a ih =>
      have keepsBracket : (if scan.ipv6I.isNone ∧ d = closeBracket then some scan.i
          else scan.ipv6I) = scan.ipv6I := by
        refine if_neg fun both => ?_
        rcases noBracket with isSet | missing
        · rw [Option.isSome_iff_ne_none] at isSet
          exact isSet (Option.isNone_iff_eq_none.mp both.1)
        · exact missing (both.2 ▸ List.mem_cons_self)
      have keepsColon : (if scan.ipv6I.isSome ∧ scan.colonI.isNone ∧ d = colon then some scan.i
          else scan.colonI) = scan.colonI := by
        refine if_neg fun all => ?_
        rcases noColon with isUnset | isSet | missing
        · rw [isUnset] at all
          exact absurd all.1 (by decide)
        · rw [Option.isSome_iff_ne_none] at isSet
          exact isSet (Option.isNone_iff_eq_none.mp all.2.1)
        · exact missing (all.2.2 ▸ List.mem_cons_self)
      rw [List.cons_append, scanIpv6, if_neg (noStop d List.mem_cons_self), keepsBracket,
        keepsColon]
      refine (@ih { scan with i := scan.i + 1 }
        (fun e member => noStop e (List.mem_cons_of_mem d member))
        (noBracket.imp_right fun missing member => missing (List.mem_cons_of_mem d member))
        (noColon.imp_right (Or.imp_right fun missing member =>
          missing (List.mem_cons_of_mem d member)))).trans ?_
      rw [List.length_cons, Nat.add_comm a.length 1, ← Nat.add_assoc]

theorem scanIpv6_slash (scan : HostScan) : scanIpv6 scan (slash :: b) = scan := by
  rw [scanIpv6, if_pos (.inr rfl), if_neg fun both => absurd both.2 (by decide),
    if_neg fun all => absurd all.2.2 (by decide)]

theorem scanIpv6_bracket {i : Nat} :
    scanIpv6 { i } (closeBracket :: b) = scanIpv6 { i := i + 1, ipv6I := some i } b := by
  rw [scanIpv6, if_neg (by decide)]
  rfl

theorem scanIpv6_colon {i k : Nat} :
    scanIpv6 { i, ipv6I := some k } (colon :: b) =
      scanIpv6 { i := i + 1, ipv6I := some k, colonI := some i } b := by
  rw [scanIpv6, if_neg (by decide)]
  rfl

end

section

variable {port : Option Bytes} {rest : Bytes}

theorem scanHost_name {bytes : Bytes} (plain : ∀ c ∈ bytes, IsPlain c)
    (portPlain : ∀ p, port = some p → ∀ c ∈ p, IsPlain c) :
    scanHost { i := 0 } (bytes ++ (marked colon port ++ slash :: rest)) =
      { i := (bytes ++ marked colon port).length, colonI := port.map fun _ => bytes.length } := by
  rw [scanHost_run (fun c member => (plain c member).notEnd)
    (.inr fun member => (plain colon member).2.2.2.2 rfl)]
  cases port with
  | none =>
      rw [marked, List.nil_append, scanHost_slash]
      simp
  | some p =>
      have pPlain := portPlain p rfl
      rw [marked, List.cons_append, scanHost_colon rfl,
        scanHost_run (fun c member => (pPlain c member).notEnd) (.inl rfl), scanHost_slash]
      simp
      omega

theorem scanIpv6_address {address : Bytes} (plain : ∀ c ∈ address, c = colon ∨ IsPlain c)
    (unclosed : closeBracket ∉ address)
    (portPlain : ∀ p, port = some p → ∀ c ∈ p, IsPlain c) :
    scanIpv6 { i := 1 } (address ++ closeBracket :: (marked colon port ++ slash :: rest)) =
      { i := address.length + 2 + (marked colon port).length
        ipv6I := some (address.length + 1)
        colonI := port.map fun _ => address.length + 2 } := by
  have noStop : ∀ c ∈ address, ¬ (c = questionMark ∨ c = slash) := by
    intro c member
    rcases plain c member with rfl | isPlain
    · decide
    · exact isPlain.notEnd
  rw [scanIpv6_run noStop (.inr unclosed) (.inl rfl), scanIpv6_bracket]
  cases port with
  | none =>
      rw [marked, List.nil_append, scanIpv6_slash]
      simp
      omega
  | some p =>
      have pPlain := portPlain p rfl
      rw [marked, List.cons_append, scanIpv6_colon,
        scanIpv6_run (fun c member => (pPlain c member).notEnd) (.inl rfl) (.inr (.inl rfl)),
        scanIpv6_slash]
      simp
      omega

/-- The host of the form is read as it is, up to the path. -/
theorem parseHost_authority (url : URL) (host : Host)
    (portPlain : ∀ p, port = some p → ∀ c ∈ p, IsPlain c)
    (small : (host.text ++ marked colon port).length ≤ u32Max) :
    url.parseHost (host.text ++ (marked colon port ++ slash :: rest)) =
      some ({ url with
        host := host.text ++ marked colon port
        hostname := host.text
        port := port.getD [] }, (host.text ++ marked colon port).length) := by
  cases host with
  | name bytes plain unbracketed =>
      have notBracket :
          (bytes ++ (marked colon port ++ slash :: rest)).head? ≠ some openBracket := by
        cases bytes with
        | cons c bytes => exact unbracketed
        | nil => cases port <;> simp [marked, slash, colon, openBracket]
      rw [Host.text] at small ⊢
      have fits : u32 (bytes ++ marked colon port).length = some _ := if_pos small
      rw [URL.parseHost, if_neg notBracket, scanHost_name plain portPlain]
      dsimp only
      rw [Option.bind_eq_bind, fits, Option.bind_some, ← List.append_assoc, List.take_left]
      cases port with
      | none => simp [marked]
      | some p => simp [marked]
  | ipv6 address plain unclosed =>
      have sameLength : address.length + 2 + (marked colon port).length =
          (openBracket :: address ++ [closeBracket] ++ marked colon port).length := by
        simp
        omega
      have wholeAddress : address.take (address.length + 1) = address :=
        List.take_of_length_le (Nat.le_succ address.length)
      have sameText :
          openBracket :: address ++ [closeBracket] ++ (marked colon port ++ slash :: rest) =
            openBracket :: (address ++ closeBracket :: (marked colon port ++ slash :: rest)) := by
        simp
      rw [Host.text] at small ⊢
      have fits : u32 (openBracket :: address ++ [closeBracket] ++ marked colon port).length =
        some _ := if_pos small
      have isBracket : (openBracket :: (address ++ closeBracket ::
        (marked colon port ++ slash :: rest))).head? = some openBracket := rfl
      rw [URL.parseHost, sameText, if_pos isBracket, List.drop_one, List.tail_cons,
        scanIpv6_address plain unclosed portPlain]
      dsimp only
      rw [sameLength, Option.bind_eq_bind, fits, Option.bind_some, ← sameText,
        ← List.append_assoc, List.take_left]
      cases port with
      | none => simp [marked, List.take_append, wholeAddress]
      | some p => simp [marked, List.take_append, wholeAddress]

end

/-! ### A host behind an `@` -/

/-- The indices of a scan stay at or behind where it started. -/
theorem scanHost_from (scan : HostScan) (str : Bytes) :
    scan.i ≤ (scanHost scan str).i ∧
      ∀ k, (scanHost scan str).colonI = some k → scan.colonI = some k ∨ scan.i ≤ k := by
  induction str generalizing scan with
  | nil => exact ⟨Nat.le_refl _, fun k isColon => .inl isColon⟩
  | cons c rest ih =>
      have setsHere : ∀ k, (if scan.colonI.isNone ∧ c = colon then some scan.i
          else scan.colonI) = some k → scan.colonI = some k ∨ scan.i ≤ k := by
        intro k isColon
        split at isColon
        · exact .inr (Nat.le_of_eq (Option.some.inj isColon))
        · exact .inl isColon
      rw [scanHost]
      split
      · exact ⟨Nat.le_refl _, setsHere⟩
      · obtain ⟨forward, sets⟩ := ih
          { scan with
            i := scan.i + 1
            colonI := if scan.colonI.isNone ∧ c = colon then some scan.i else scan.colonI }
        refine ⟨Nat.le_of_succ_le forward, fun k isColon => ?_⟩
        rcases sets k isColon with before | later
        · exact setsHere k before
        · exact .inr (Nat.le_of_succ_le later)

theorem parseHost_username {url url' : URL} {str : Bytes} {n : Nat}
    (isRead : url.parseHost str = some (url', n)) : url'.username = url.username := by
  unfold URL.parseHost at isRead
  split at isRead
  · obtain ⟨i, _, isRead⟩ := Option.bind_eq_some_iff.mp isRead
    cases isRead
    rfl
  · obtain ⟨i, _, isRead⟩ := Option.bind_eq_some_iff.mp isRead
    split at isRead
    · cases isRead
      rfl
    · cases isRead
      rfl

/-- An `@` in front becomes part of the host name. -/
theorem parseHost_atSign {url url' : URL} {rest : Bytes} {n : Nat}
    (isRead : url.parseHost (atSign :: rest) = some (url', n)) :
    atSign ∈ url'.hostname := by
  have isTaken : ∀ k, 1 ≤ k → atSign ∈ (atSign :: rest).take k := by
    intro k positive
    obtain ⟨k, rfl⟩ := Nat.exists_eq_add_of_le' positive
    exact List.mem_cons_self
  have isScan : scanHost { i := 0 } (atSign :: rest) = scanHost { i := 1 } rest := by
    rw [scanHost, if_neg (by decide)]
    rfl
  obtain ⟨forward, sets⟩ := scanHost_from { i := 1 } rest
  rw [URL.parseHost, if_neg (by simp [atSign, openBracket]), isScan] at isRead
  obtain ⟨i, isI, isRead⟩ := Option.bind_eq_some_iff.mp isRead
  split at isRead
  · next k isColon =>
    cases isRead
    rcases sets k isColon with isNone | behind
    · cases isNone
    · exact isTaken k behind
  · cases isRead
    rw [u32] at isI
    split at isI
    · cases isI
      exact isTaken _ forward
    · cases isI

end Bunx.Url
