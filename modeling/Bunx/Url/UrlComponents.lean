/-
Module: Bunx.Url.UrlComponents
Purpose: Which URLs of the serialised form are taken apart into the parts they are made of: all
  but those whose user stands alone in front of a colon, and those without a query whose
  fragment holds a question mark.
Trusted boundary: none
Main exports:
  UrlText.IsParsed, UserHidden, MarkInFragment, parse_components, parse_components_full,
  user_before_port
-/
import Bunx.Url.UrlText

namespace Bunx.Url

namespace UrlText

variable (u : UrlText)

/-! ### In front of the path -/

/-- What the code reads of a text of the form where all goes well, up to the path. -/
def expectedFront : URL :=
  { href := u.text
    protocol := u.scheme
    username := u.credentials.elim [] Credentials.user
    password := (u.credentials.bind Credentials.password).getD []
    host := u.authority
    hostname := u.host.text
    port := u.port.getD [] }

/-- The user stands alone, and is empty or has a colon somewhere behind it. -/
def UserHidden : Prop :=
  ∃ c, u.credentials = some c ∧ c.password = none ∧
    (c.user = [] ∨ colon ∈ u.authority ++ u.tail)

def pathOffset : Nat := (u.opening ++ u.credentialsText ++ u.authority).length

theorem authority_noEnd : ∀ c ∈ u.authority, c ≠ slash ∧ c ≠ questionMark ∧ c ≠ atSign := by
  intro c member
  have ofPlain : IsPlain c → c ≠ slash ∧ c ≠ questionMark ∧ c ≠ atSign :=
    fun plain => ⟨plain.1, plain.2.1, plain.2.2.2.1⟩
  rcases List.mem_append.mp member with inHost | inPort
  · cases isHost : u.host with
    | name bytes plain unbracketed =>
        rw [isHost] at inHost
        exact ofPlain (plain c inHost)
    | ipv6 address plain unclosed =>
        rw [isHost] at inHost
        rcases List.mem_append.mp inHost with inFront | isClose
        · rcases List.mem_cons.mp inFront with rfl | inAddress
          · decide
          · rcases plain c inAddress with rfl | isPlain
            · decide
            · exact ofPlain isPlain
        · rw [List.mem_singleton.mp isClose]
          decide
  · cases isPort : u.port with
    | none =>
        rw [isPort] at inPort
        cases inPort
    | some p =>
        rw [isPort] at inPort
        rcases List.mem_cons.mp inPort with rfl | inPart
        · decide
        · exact ofPlain (u.portPlain p isPort c inPart)

theorem drop_opening :
    u.text.drop u.opening.length = u.credentialsText ++ (u.authority ++ u.tail) :=
  List.drop_left

theorem tail_cons : u.tail = slash :: (u.pathRest ++ (u.search ++ u.hash)) := rfl

theorem parseHost_text (url : URL) (small : u.text.length ≤ u32Max) :
    url.parseHost (u.authority ++ u.tail) =
      some ({ url with
        host := u.authority
        hostname := u.host.text
        port := u.port.getD [] }, u.authority.length) := by
  rw [authority, List.append_assoc, tail_cons]
  refine parseHost_authority url u.host u.portPlain (Nat.le_trans ?_ small)
  simp only [text, authority, List.length_append]
  omega

theorem protocolEnd_text : protocolEnd u.text = some u.scheme.length := by
  rw [text, opening, List.append_assoc]
  refine protocolEnd_append fun c member => ?_
  have isByte : isSchemeByte c = true := by
    rcases List.mem_cons.mp member with rfl | inRest
    · rw [isSchemeByte, u.isLetter]
      rfl
    · exact u.schemeBytes c inRest
  refine ⟨?_, ?_, ?_, ?_⟩
  all_goals
    rintro rfl
    exact absurd isByte (by decide)

/-- Behind the protocol the credentials are read, then the host. -/
theorem front_text (small : u.text.length ≤ u32Max) :
    URL.front { href := u.text } u.text u.letter = (do
      let (url, offset) ← URL.credentials { href := u.text, protocol := u.scheme } u.text
        u.opening.length
      let (url, m) ← url.parseHost (u.text.drop offset)
      let offset ← u32 (offset + m)
      some (url, offset)) := by
  have notAt : u.letter ≠ atSign := by
    intro isAt
    exact absurd (isAt ▸ u.isLetter) (by decide)
  have notSlash : (u.letter == slash) = false := by
    rw [beq_eq_false_iff_ne]
    intro isSlash
    exact absurd (isSlash ▸ u.isLetter) (by decide)
  have isFirst : URL.isFirstByte u.letter = true := by
    have letter := u.isLetter
    rw [Bunx.Url.isLetter, Bool.or_eq_true] at letter
    rcases letter with lower | upper
    · simp only [URL.isFirstByte, lower, Bool.or_true, Bool.true_or]
    · simp only [URL.isFirstByte, upper, Bool.or_true, Bool.true_or]
  have second : (u.text[1]? == some slash) = false := by
    rw [beq_eq_false_iff_ne, text, opening, scheme]
    cases isRest : u.schemeRest with
    | nil => exact fun isSlash => absurd (Option.some.inj isSlash) (by decide)
    | cons c rest =>
        intro isSlash
        have isByte := u.schemeBytes c (isRest ▸ List.mem_cons_self)
        rw [Option.some.inj isSlash] at isByte
        exact absurd isByte (by decide)
  have isProtocol : URL.parseProtocol { href := u.text } u.text =
      some ({ href := u.text, protocol := u.scheme }, some u.opening.length) := by
    have fits : u32 (u.scheme.length + 3) = some _ := if_pos (by
      simp only [text, opening, List.length_append, List.length_cons] at small
      omega)
    rw [URL.parseProtocol, u.protocolEnd_text]
    dsimp only
    rw [fits, Option.bind_eq_bind, Option.bind_some, text, opening, List.append_assoc,
      List.take_left, List.length_append]
    rfl
  rw [URL.front, if_neg notAt, if_pos isFirst, second, notSlash, isProtocol]
  rfl

/-! ### Credentials -/

theorem indexOfChar_slash (small : u.text.length ≤ u32Max) {front : Bytes}
    (noSlash : slash ∉ front) (within : front.length ≤ u.text.length) :
    indexOfChar (front ++ u.tail) slash = some front.length := by
  rw [tail_cons]
  exact indexOfChar_append noSlash (Nat.le_trans within small)

theorem slash_notMem_authority : slash ∉ u.authority :=
  fun member => (u.authority_noEnd slash member).1 rfl

theorem atSign_notMem_authority : atSign ∉ u.authority :=
  fun member => (u.authority_noEnd atSign member).2.2 rfl

/-- Without credentials an `@` stands at most behind the host, and none are read. -/
theorem credentials_none (url : URL) (small : u.text.length ≤ u32Max)
    (isNone : u.credentials = none) :
    url.credentials u.text u.opening.length = some (url, u.opening.length) := by
  have noText : u.credentialsText = [] := by rw [credentialsText, isNone]
  have within : (u.authority ++ u.tail).length ≤ u.text.length := by
    simp only [text, List.length_append]
    omega
  have slashAt := u.indexOfChar_slash small u.slash_notMem_authority (by
    rw [List.length_append] at within
    omega)
  rw [URL.credentials, drop_opening, noText, List.nil_append]
  refine if_neg fun all => ?_
  obtain ⟨_, behindColon, beforeSlash⟩ := all
  rw [slashAt, Option.getD_some] at beforeSlash
  cases found : indexOfChar (u.authority ++ u.tail) atSign with
  | none =>
      rw [found] at behindColon
      exact absurd behindColon (Nat.not_lt_zero _)
  | some i =>
      rw [found] at beforeSlash
      have notBefore := indexOfChar_behind u.atSign_notMem_authority
        (Nat.le_trans within small) found
      exact absurd beforeSlash (Nat.not_lt.mpr notBefore)

section

variable {u} {c : Credentials}

theorem Credentials.user_notMem {d : UInt8} (notPlain : ¬ IsPlain d) : d ∉ c.user :=
  fun member => notPlain (c.userPlain d member)

theorem drop_opening_some (isSome : u.credentials = some c) :
    u.text.drop u.opening.length =
      c.user ++ (Credentials.behindUser c.password ++ (u.authority ++ u.tail)) := by
  rw [drop_opening, credentialsText, isSome]
  dsimp only
  rw [Credentials.text, List.append_assoc]

/-- A user alone is not read where a colon stands behind it. -/
theorem credentials_hidden (url : URL) (small : u.text.length ≤ u32Max)
    (hidden : u.UserHidden) :
    url.credentials u.text u.opening.length = some (url, u.opening.length) := by
  obtain ⟨c, isSome, noPassword, isHidden⟩ := hidden
  have atFound : indexOfChar (c.user ++ atSign :: (u.authority ++ u.tail)) atSign =
      some c.user.length := by
    refine indexOfChar_append (Credentials.user_notMem (by decide)) (Nat.le_trans ?_ small)
    simp only [text, credentialsText, isSome, Credentials.text, List.length_append]
    omega
  rw [URL.credentials, drop_opening_some isSome, noPassword, Credentials.behindUser,
    List.singleton_append, atFound]
  refine if_neg fun all => ?_
  obtain ⟨_, behindColon, _⟩ := all
  rw [Option.getD_some] at behindColon
  rcases isHidden with isEmpty | hasColon
  · rw [isEmpty] at behindColon
    exact absurd behindColon (Nat.not_lt_zero _)
  · have split : c.user ++ atSign :: (u.authority ++ u.tail) =
        (c.user ++ [atSign]) ++ (u.authority ++ u.tail) := by simp
    have missing : colon ∉ c.user ++ [atSign] := by
      rw [List.mem_append]
      rintro (inUser | isAt)
      · exact Credentials.user_notMem (by decide) inUser
      · exact absurd isAt (by decide)
    obtain ⟨i, found, behind⟩ := indexOfChar_member missing hasColon (by
      rw [← split]
      refine Nat.le_trans ?_ small
      rw [← List.singleton_append]
      simp only [text, credentialsText, isSome, noPassword, Credentials.text,
        Credentials.behindUser, List.length_append]
      omega)
    rw [split, found, Option.getD_some] at behindColon
    rw [List.length_append, List.length_singleton] at behind
    omega

theorem parseUsername_user (url : URL) {d : UInt8} {rest : Bytes}
    (isEnd : (decide (d = colon) || decide (d = atSign)) = true)
    (small : c.user.length + 1 ≤ u32Max) :
    url.parseUsername (c.user ++ d :: rest) =
      some ({ url with username := c.user }, some (c.user.length + 1)) := by
  have fits : u32 (c.user.length + 1) = some _ := if_pos small
  have ends : partEnd (fun c => c = colon || c = atSign) (c.user ++ d :: rest) =
      some c.user.length := by
    refine partEnd_append isEnd fun e member => ⟨?_, (c.userPlain e member).notEnd⟩
    have plain := c.userPlain e member
    simp [plain.2.2.2.1, plain.2.2.2.2]
  rw [URL.parseUsername, ends]
  dsimp only
  rw [fits, List.take_left]
  rfl

theorem parsePassword_password (url : URL) {p rest : Bytes} (plain : ∀ d ∈ p, IsPlain d)
    (small : p.length + 1 ≤ u32Max) :
    url.parsePassword (p ++ atSign :: rest) =
      some ({ url with password := p }, some (p.length + 1)) := by
  have fits : u32 (p.length + 1) = some _ := if_pos small
  have ends : partEnd (· = atSign) (p ++ atSign :: rest) = some p.length := by
    refine partEnd_append rfl fun d member => ⟨?_, (plain d member).notEnd⟩
    simp [(plain d member).2.2.2.1]
  rw [URL.parsePassword, ends]
  dsimp only
  rw [fits, List.take_left]
  rfl

/-- A user and a password are read up to the `@`. -/
theorem credentials_password (url : URL) (small : u.text.length ≤ u32Max)
    (isSome : u.credentials = some c) {p : Bytes} (isPassword : c.password = some p) :
    url.credentials u.text u.opening.length =
      some ({ url with username := c.user, password := p },
        u.opening.length + u.credentialsText.length) := by
  have pPlain := c.passwordPlain p isPassword
  have lengths : u.text.length = u.opening.length +
      (c.user.length + (1 + (p.length + (1 + (u.authority.length + u.tail.length))))) := by
    simp only [text, credentialsText, isSome, isPassword, Credentials.text, Credentials.behindUser,
      List.length_append, List.length_cons, List.length_nil]
    omega
  have isRest : u.text.drop u.opening.length =
      c.user ++ colon :: (p ++ atSign :: (u.authority ++ u.tail)) := by
    rw [drop_opening_some isSome, isPassword, Credentials.behindUser]
    simp
  have colonFound : indexOfChar (u.text.drop u.opening.length) colon = some c.user.length := by
    rw [isRest]
    exact indexOfChar_append (Credentials.user_notMem (by decide)) (by omega)
  have atFound : indexOfChar (u.text.drop u.opening.length) atSign =
      some (c.user ++ colon :: p).length := by
    have split : c.user ++ colon :: (p ++ atSign :: (u.authority ++ u.tail)) =
        (c.user ++ colon :: p) ++ atSign :: (u.authority ++ u.tail) := by simp
    rw [isRest, split]
    refine indexOfChar_append ?_ ?_
    · rw [List.mem_append, List.mem_cons]
      rintro (inUser | isColon | inPassword)
      · exact Credentials.user_notMem (by decide) inUser
      · exact absurd isColon (by decide)
      · exact absurd (pPlain atSign inPassword) (by decide)
    · rw [List.length_append, List.length_cons]
      omega
  have slashFound : indexOfChar (u.text.drop u.opening.length) slash =
      some (c.user ++ colon :: p ++ atSign :: u.authority).length := by
    have split : c.user ++ colon :: (p ++ atSign :: (u.authority ++ u.tail)) =
        (c.user ++ colon :: p ++ atSign :: u.authority) ++ u.tail := by simp
    rw [isRest, split]
    refine u.indexOfChar_slash small ?_ ?_
    · simp only [List.mem_append, List.mem_cons]
      rintro ((inUser | isColon | inPassword) | isAt | inAuthority)
      · exact Credentials.user_notMem (by decide) inUser
      · exact absurd isColon (by decide)
      · exact absurd (pPlain slash inPassword) (by decide)
      · exact absurd isAt (by decide)
      · exact u.slash_notMem_authority inAuthority
    · simp only [List.length_append, List.length_cons]
      omega
  have isUser : url.parseUsername (u.text.drop u.opening.length) =
      some ({ url with username := c.user }, some (c.user.length + 1)) := by
    rw [isRest]
    exact parseUsername_user url (by decide) (by omega)
  have dropUser : u.text.drop (u.opening.length + (c.user.length + 1)) =
      p ++ atSign :: (u.authority ++ u.tail) := by
    rw [← List.drop_drop, isRest, List.drop_append, List.drop_of_length_le (by omega)]
    simp
  have isPassword' : URL.parsePassword { url with username := c.user }
      (p ++ atSign :: (u.authority ++ u.tail)) =
        some ({ url with username := c.user, password := p }, some (p.length + 1)) :=
    parsePassword_password _ pPlain (by omega)
  have fitsUser : u32 (u.opening.length + (c.user.length + 1)) = some _ := if_pos (by omega)
  have fitsBoth : u32 (u.opening.length + (c.user.length + 1) + (p.length + 1)) = some _ :=
    if_pos (by omega)
  rw [URL.credentials]
  dsimp only
  rw [colonFound, atFound, slashFound, if_pos, isUser, Option.bind_eq_bind, Option.bind_some]
  · dsimp only
    rw [Option.getD_some, fitsUser, Option.bind_eq_bind, Option.bind_some, dropUser, isPassword',
      Option.bind_some]
    dsimp only
    rw [Option.getD_some, fitsBoth, credentialsText, isSome]
    simp [Credentials.text, isPassword, Credentials.behindUser]
    omega
  · simp only [Option.getD_some, List.length_append, List.length_cons]
    have nonempty : 0 < u.opening.length := by simp [opening]
    omega

/-- A user alone is read where no colon stands behind it. -/
theorem credentials_user (url : URL) (small : u.text.length ≤ u32Max)
    (isSome : u.credentials = some c) (noPassword : c.password = none) (nonempty : c.user ≠ [])
    (noColon : colon ∉ u.authority ++ u.tail) :
    url.credentials u.text u.opening.length =
      some ({ url with username := c.user, password := [] },
        u.opening.length + u.credentialsText.length) := by
  have lengths : u.text.length = u.opening.length +
      (c.user.length + (1 + (u.authority.length + u.tail.length))) := by
    simp only [text, credentialsText, isSome, noPassword, Credentials.text,
      Credentials.behindUser, List.length_append, List.length_cons, List.length_nil]
    omega
  have isRest : u.text.drop u.opening.length = c.user ++ atSign :: (u.authority ++ u.tail) := by
    rw [drop_opening_some isSome, noPassword, Credentials.behindUser, List.singleton_append]
  have colonFound : indexOfChar (u.text.drop u.opening.length) colon = none := by
    rw [isRest]
    refine indexOfChar_none ?_
    rw [List.mem_append, List.mem_cons]
    rintro (inUser | isAt | isBehind)
    · exact Credentials.user_notMem (by decide) inUser
    · exact absurd isAt (by decide)
    · exact noColon isBehind
  have atFound : indexOfChar (u.text.drop u.opening.length) atSign = some c.user.length := by
    rw [isRest]
    exact indexOfChar_append (Credentials.user_notMem (by decide)) (by omega)
  have slashFound : indexOfChar (u.text.drop u.opening.length) slash =
      some (c.user ++ atSign :: u.authority).length := by
    have split : c.user ++ atSign :: (u.authority ++ u.tail) =
        (c.user ++ atSign :: u.authority) ++ u.tail := by simp
    rw [isRest, split]
    refine u.indexOfChar_slash small ?_ ?_
    · simp only [List.mem_append, List.mem_cons]
      rintro (inUser | isAt | inAuthority)
      · exact Credentials.user_notMem (by decide) inUser
      · exact absurd isAt (by decide)
      · exact u.slash_notMem_authority inAuthority
    · simp only [List.length_append, List.length_cons]
      omega
  have isUser : url.parseUsername (u.text.drop u.opening.length) =
      some ({ url with username := c.user }, some (c.user.length + 1)) := by
    rw [isRest]
    exact parseUsername_user url (by decide) (by omega)
  have dropUser : u.text.drop (u.opening.length + (c.user.length + 1)) =
      u.authority ++ u.tail := by
    rw [← List.drop_drop, isRest, List.drop_append, List.drop_of_length_le (by omega)]
    simp
  have noPassword' : URL.parsePassword { url with username := c.user } (u.authority ++ u.tail) =
      some ({ url with username := c.user, password := [] }, none) := by
    rw [URL.parsePassword, tail_cons, partEnd_hidden (by decide)]
    intro d member
    exact decide_eq_false (u.authority_noEnd d member).2.2
  have fitsUser : u32 (u.opening.length + (c.user.length + 1)) = some _ := if_pos (by omega)
  rw [URL.credentials]
  dsimp only
  rw [colonFound, atFound, slashFound, if_pos, isUser, Option.bind_eq_bind, Option.bind_some]
  · dsimp only
    rw [Option.getD_some, fitsUser, Option.bind_eq_bind, Option.bind_some, dropUser, noPassword',
      Option.bind_some]
    dsimp only
    rw [Option.getD_none, Nat.add_zero, fitsUser, credentialsText, isSome]
    simp [Credentials.text, noPassword, Credentials.behindUser]
  · simp only [Option.getD_some, Option.getD_none, List.length_append, List.length_cons]
    have positive : 0 < u.opening.length := by simp [opening]
    have userPositive := List.length_pos_iff.mpr nonempty
    omega

end

/-! ### The host behind the credentials -/

/-- Where no user is hidden, all is read up to the path. -/
theorem front_read (small : u.text.length ≤ u32Max) (notHidden : ¬ u.UserHidden) :
    URL.front { href := u.text } u.text u.letter = some (u.expectedFront, u.pathOffset) := by
  have isRead : URL.credentials { href := u.text, protocol := u.scheme } u.text
      u.opening.length =
        some ({ href := u.text
                protocol := u.scheme
                username := u.credentials.elim [] Credentials.user
                password := (u.credentials.bind Credentials.password).getD [] },
          u.opening.length + u.credentialsText.length) := by
    cases isCredentials : u.credentials with
    | none =>
        rw [u.credentials_none _ small isCredentials, credentialsText, isCredentials]
        rfl
    | some c =>
        cases isPassword : c.password with
        | some p =>
            rw [credentials_password _ small isCredentials isPassword]
            simp [isPassword]
        | none =>
            have clear : c.user ≠ [] ∧ colon ∉ u.authority ++ u.tail := by
              constructor
              · exact fun isEmpty => notHidden ⟨c, isCredentials, isPassword, .inl isEmpty⟩
              · exact fun member => notHidden ⟨c, isCredentials, isPassword, .inr member⟩
            rw [credentials_user _ small isCredentials isPassword clear.1 clear.2]
            simp [isPassword]
  have isRest : u.text.drop (u.opening.length + u.credentialsText.length) =
      u.authority ++ u.tail := by
    rw [← List.drop_drop, drop_opening, List.drop_left]
  have sameOffset : u.opening.length + u.credentialsText.length + u.authority.length =
      u.pathOffset := by
    simp only [pathOffset, List.length_append]
  have fits : u32 u.pathOffset = some _ := if_pos (by
    simp only [text, pathOffset, List.length_append] at small ⊢
    omega)
  rw [u.front_text small, isRead, Option.bind_eq_bind, Option.bind_some]
  dsimp only
  rw [isRest, u.parseHost_text _ small, Option.bind_some]
  dsimp only
  rw [sameOffset, fits]
  rfl

/-- A hidden user is lost, or the host is read with the `@` in front. -/
theorem front_hidden (small : u.text.length ≤ u32Max) (hidden : u.UserHidden) {url : URL}
    {offset : Nat}
    (isRead : URL.front { href := u.text } u.text u.letter = some (url, offset)) :
    url.username ≠ u.credentials.elim [] Credentials.user ∨ url.hostname ≠ u.host.text := by
  rw [u.front_text small, credentials_hidden _ small hidden, Option.bind_eq_bind,
    Option.bind_some] at isRead
  obtain ⟨⟨url', n⟩, isHost, isRead⟩ := Option.bind_eq_some_iff.mp isRead
  obtain ⟨end', _, isRead⟩ := Option.bind_eq_some_iff.mp isRead
  cases isRead
  obtain ⟨c, isSome, noPassword, _⟩ := hidden
  have noUsername : url.username = [] := parseHost_username isHost
  cases isUser : c.user with
  | cons d user =>
      refine .inl ?_
      rw [noUsername, isSome, Option.elim_some, isUser]
      exact (List.cons_ne_nil d user).symm
  | nil =>
      refine .inr fun same => ?_
      rw [drop_opening_some isSome, isUser, noPassword] at isHost
      have inHost : atSign ∈ u.host.text := same ▸ parseHost_atSign isHost
      exact u.atSign_notMem_authority (List.mem_append_left _ inHost)

/-! ### From the path on -/

/-- A fragment with a question mark, without a query in front of it. -/
def MarkInFragment : Prop := u.query = none ∧ questionMark ∈ u.hash

theorem drop_pathOffset : u.text.drop u.pathOffset = u.tail := by
  have split : u.text = (u.opening ++ u.credentialsText ++ u.authority) ++ u.tail := by
    simp only [text, List.append_assoc]
  rw [pathOffset, split, List.drop_left]

theorem length_text : u.text.length =
    u.pathOffset + (u.path.length + (u.search.length + u.hash.length)) := by
  simp only [text, pathOffset, tail, List.length_append]
  omega

theorem take_text (rest : Bytes) {part : Bytes} (isTail : u.tail = part ++ rest) :
    (u.text.take (u.pathOffset + part.length)).drop u.pathOffset = part := by
  rw [List.drop_take, drop_pathOffset, isTail, Nat.add_sub_cancel_left, List.take_left]

theorem mark_notMem_path : questionMark ∉ u.path := by
  intro member
  rcases List.mem_cons.mp member with isSlash | inRest
  · exact absurd isSlash (by decide)
  · exact (u.pathFree _ inRest).1 rfl

theorem sign_notMem_path : numberSign ∉ u.path := by
  intro member
  rcases List.mem_cons.mp member with isSlash | inRest
  · exact absurd isSlash (by decide)
  · exact (u.pathFree _ inRest).2 rfl

theorem sign_notMem_search : numberSign ∉ u.search := by
  intro member
  rw [search] at member
  cases isQuery : u.query with
  | none =>
      rw [isQuery] at member
      cases member
  | some q =>
      rw [isQuery] at member
      rcases List.mem_cons.mp member with isMark | inQuery
      · exact absurd isMark (by decide)
      · exact u.queryFree q isQuery inQuery

theorem readSearch_some (url : URL) (small : u.text.length ≤ u32Max) {q : Bytes}
    (isQuery : u.query = some q) :
    URL.readSearch url u.text u.pathOffset =
      some { url := { url with path := u.path, search := u.search ++ u.hash }
             offset := u.pathOffset + u.path.length
             canUpdatePath := false } := by
  have lengths := u.length_text
  have isTail : u.tail = u.path ++ questionMark :: (q ++ u.hash) := by
    rw [tail, search, isQuery, marked, List.cons_append]
  have found : indexOfChar u.tail questionMark = some u.path.length := by
    rw [isTail]
    exact indexOfChar_append u.mark_notMem_path (by omega)
  have fits : u32 (u.pathOffset + u.path.length) = some _ := if_pos (by omega)
  have behind : u.text.drop (u.pathOffset + u.path.length) = u.search ++ u.hash := by
    rw [← List.drop_drop, drop_pathOffset, tail, List.drop_left]
  rw [URL.readSearch, drop_pathOffset, found]
  dsimp only
  rw [fits, Option.bind_eq_bind, Option.bind_some, behind, tail, List.take_left]

theorem readSearch_none (url : URL) (isQuery : u.query = none) (noMark : ¬ u.MarkInFragment) :
    URL.readSearch url u.text u.pathOffset = some { url, offset := u.pathOffset } := by
  rw [URL.readSearch, drop_pathOffset, indexOfChar_none]
  rw [tail, search, isQuery, marked, List.nil_append, List.mem_append]
  rintro (inPath | inHash)
  · exact u.mark_notMem_path inPath
  · exact noMark ⟨isQuery, inHash⟩

section

variable {u} {reading : URL.Reading} {front : Bytes}

theorem readHash_none (isFragment : u.fragment = none)
    (isBehind : u.text.drop reading.offset = front ++ u.hash) (noSign : numberSign ∉ front) :
    URL.readHash reading u.text u.pathOffset = some reading := by
  rw [hash, isFragment, marked, List.append_nil] at isBehind
  rw [URL.readHash, isBehind, indexOfChar_none noSign]

theorem readHash_some (small : u.text.length ≤ u32Max) {f : Bytes}
    (isFragment : u.fragment = some f)
    (isBehind : u.text.drop reading.offset = front ++ u.hash) (noSign : numberSign ∉ front)
    (inside : reading.offset + front.length ≤ u.text.length) :
    URL.readHash reading u.text u.pathOffset =
      some { reading with
        url := { reading.url with
          path := if reading.canUpdatePath then u.tail.take front.length else reading.url.path
          hash := u.hash
          search :=
            if reading.url.search ≠ [] then
              reading.url.search.take (reading.url.search.length - u.hash.length)
            else reading.url.search }
        offset := reading.offset + front.length
        hashOffset := reading.offset + front.length } := by
  have found : indexOfChar (front ++ u.hash) numberSign = some front.length := by
    rw [hash, isFragment, marked]
    exact indexOfChar_append noSign (by omega)
  have fits : u32 (reading.offset + front.length) = some _ := if_pos (by omega)
  have isHash : u.text.drop (reading.offset + front.length) = u.hash := by
    rw [← List.drop_drop, isBehind, List.drop_left]
  rw [URL.readHash, isBehind, found]
  dsimp only
  rw [fits, Option.bind_eq_bind, Option.bind_some, isHash, drop_pathOffset]

end

theorem slash_pathOffset : u.text[u.pathOffset]? = some slash := by
  rw [← Nat.add_zero u.pathOffset, ← List.getElem?_drop, drop_pathOffset]
  rfl

theorem pathOffset_pos : 0 < u.pathOffset := by
  simp only [pathOffset, opening, List.length_append, List.length_cons]
  omega

theorem setPathname_search {reading : URL.Reading} (positive : 0 < reading.offset)
    (hasSearch : reading.url.search ≠ []) {stop : Nat}
    (isStop : min (min (reading.offset + reading.url.search.length) u.text.length)
      reading.hashOffset = stop) :
    (URL.setPathname reading u.text u.pathOffset).pathname =
      (u.text.take stop).drop u.pathOffset := by
  rw [URL.setPathname, if_pos ⟨u.slash_pathOffset, positive⟩]
  dsimp only
  rw [if_pos hasSearch, isStop]

theorem setPathname_hash {reading : URL.Reading} (positive : 0 < reading.offset)
    (noSearch : reading.url.search = []) :
    (URL.setPathname reading u.text u.pathOffset).pathname =
      if reading.hashOffset < u32Max then
        (u.text.take reading.hashOffset).drop u.pathOffset
      else reading.url.pathname := by
  rw [URL.setPathname, if_pos ⟨u.slash_pathOffset, positive⟩]
  dsimp only
  rw [if_neg fun hasSearch => hasSearch noSearch]

/-- The readings of search and fragment, and the path name in front of the fragment. -/
theorem reading_text (small : u.text.length ≤ u32Max) (noMark : ¬ u.MarkInFragment) {url : URL}
    (noSearch : url.search = []) (noHash : url.hash = []) (isPathname : url.pathname = u.tail) :
    ∃ first second, URL.readSearch url u.text u.pathOffset = some first ∧
      URL.readHash first u.text u.pathOffset = some second ∧
      second.url.search = u.search ∧ second.url.hash = u.hash ∧
      (URL.setPathname second u.text u.pathOffset).pathname = u.path ++ u.search := by
  have lengths := u.length_text
  have positive := u.pathOffset_pos
  cases isQuery : u.query with
  | some q =>
      have searchEq : u.search = questionMark :: q := by rw [search, isQuery, marked]
      have behind : u.text.drop (u.pathOffset + u.path.length) = u.search ++ u.hash := by
        rw [← List.drop_drop, drop_pathOffset, tail, List.drop_left]
      have isTail : u.tail = (u.path ++ u.search) ++ u.hash := by
        rw [tail, List.append_assoc]
      have taken := u.take_text u.hash isTail
      cases isFragment : u.fragment with
      | none =>
          have hashEq : u.hash = [] := by rw [hash, isFragment, marked]
          refine ⟨_, _, u.readSearch_some url small isQuery,
            readHash_none isFragment behind u.sign_notMem_search, ?_, ?_, ?_⟩
          · rw [hashEq, List.append_nil]
          · rw [hashEq]
            exact noHash
          · refine (u.setPathname_search ?_ ?_ ?_).trans taken
            · exact Nat.add_pos_left positive _
            · rw [searchEq]
              exact List.cons_ne_nil _ _
            · have noLength : u.hash.length = 0 := by rw [hashEq, List.length_nil]
              dsimp only
              rw [List.length_append, List.length_append]
              omega
      | some f =>
          have kept : (u.search ++ u.hash).take
              ((u.search ++ u.hash).length - u.hash.length) = u.search := by
            rw [List.length_append, Nat.add_sub_cancel, List.take_left]
          have hasSearch : u.search ++ u.hash ≠ [] := by
            rw [searchEq]
            exact List.cons_ne_nil _ _
          refine ⟨_, _, u.readSearch_some url small isQuery,
            readHash_some small isFragment behind u.sign_notMem_search ?_, ?_, rfl, ?_⟩
          · dsimp only
            omega
          · dsimp only
            rw [if_pos hasSearch, kept]
          · refine (u.setPathname_search ?_ ?_ ?_).trans taken
            · exact Nat.add_pos_left (Nat.add_pos_left positive _) _
            · dsimp only
              rw [if_pos hasSearch, kept, searchEq]
              exact List.cons_ne_nil _ _
            · dsimp only
              rw [if_pos hasSearch, kept, List.length_append]
              omega
  | none =>
      have searchEq : u.search = [] := by rw [search, isQuery, marked]
      have behind : u.text.drop u.pathOffset = u.path ++ u.hash := by
        rw [drop_pathOffset, tail, searchEq, List.nil_append]
      cases isFragment : u.fragment with
      | none =>
          have hashEq : u.hash = [] := by rw [hash, isFragment, marked]
          refine ⟨_, _, u.readSearch_none url isQuery noMark,
            readHash_none isFragment behind u.sign_notMem_path, ?_, ?_, ?_⟩
          · rw [noSearch, searchEq]
          · rw [noHash, hashEq]
          · rw [u.setPathname_hash positive noSearch, if_neg (Nat.lt_irrefl _), isPathname, tail,
              hashEq, List.append_nil]
      | some f =>
          have hashEq : u.hash = numberSign :: f := by rw [hash, isFragment, marked]
          refine ⟨_, _, u.readSearch_none url isQuery noMark,
            readHash_some small isFragment behind u.sign_notMem_path ?_, ?_, rfl, ?_⟩
          · dsimp only
            omega
          · dsimp only
            rw [if_neg fun hasSearch => hasSearch noSearch, noSearch, searchEq]
          · rw [u.setPathname_hash (by dsimp only; omega) ?_, if_pos]
            · rw [u.take_text u.hash, searchEq, List.append_nil]
              rw [tail, searchEq, List.nil_append]
            · rw [hashEq, List.length_cons] at lengths
              dsimp only
              omega
            · dsimp only
              rw [if_neg fun hasSearch => hasSearch noSearch, noSearch]

/-- A question mark in the fragment is taken for a query. -/
theorem reading_marked (small : u.text.length ≤ u32Max) (mark : u.MarkInFragment) {url : URL}
    {first second : URL.Reading} (isFirst : URL.readSearch url u.text u.pathOffset = some first)
    (isSecond : URL.readHash first u.text u.pathOffset = some second) :
    second.url.search ≠ [] := by
  have lengths := u.length_text
  obtain ⟨noQuery, inHash⟩ := mark
  obtain ⟨front, rest, isTail, isFront⟩ :=
    List.eq_append_cons_of_mem (List.mem_append_right (u.path ++ u.search) inHash)
  rw [List.append_assoc, ← tail] at isTail
  have tailLength : u.tail.length = front.length + (rest.length + 1) := by
    rw [isTail, List.length_append, List.length_cons]
  have textLength : u.text.length = u.pathOffset + u.tail.length := by
    simp only [lengths, tail, List.length_append]
  have found : indexOfChar u.tail questionMark = some front.length := by
    rw [isTail]
    exact indexOfChar_append isFront (by omega)
  have fits : u32 (u.pathOffset + front.length) = some _ := if_pos (by omega)
  have isBehind : u.text.drop (u.pathOffset + front.length) = questionMark :: rest := by
    rw [← List.drop_drop, drop_pathOffset, isTail, List.drop_left]
  rw [URL.readSearch, drop_pathOffset, found] at isFirst
  dsimp only at isFirst
  rw [fits, Option.bind_eq_bind, Option.bind_some, isBehind] at isFirst
  cases isFirst
  rw [URL.readHash] at isSecond
  dsimp only at isSecond
  rw [isBehind] at isSecond
  split at isSecond
  · cases isSecond
    exact List.cons_ne_nil _ _
  · next h foundHash =>
    have behindMark : 1 ≤ h := by
      rw [← List.singleton_append] at foundHash
      exact indexOfChar_behind (by decide) (by simp; omega) foundHash
    obtain ⟨n, isN, isSecond⟩ := Option.bind_eq_some_iff.mp isSecond
    cases isSecond
    rw [u32] at isN
    split at isN
    · cases isN
      dsimp only
      rw [if_pos (List.cons_ne_nil _ _), ← List.drop_drop, isBehind, List.length_drop]
      obtain ⟨h, rfl⟩ := Nat.exists_eq_add_of_le' behindMark
      rw [List.length_cons, Nat.add_sub_add_right]
      have kept : rest.length + 1 - (rest.length - h) = (rest.length - (rest.length - h)) + 1 := by
        omega
      rw [kept, List.take_succ_cons]
      exact List.cons_ne_nil _ _
    · cases isN

/-! ### The whole text -/

/-- What the authority leaves in a view. -/
def authorityPart (url : URL) : Bytes × Bytes × Bytes × Bytes × Bytes :=
  (url.protocol, url.username, url.password, url.hostname, url.port)

theorem readSearch_frame {url : URL} {base : Bytes} {offset : Nat} {reading : URL.Reading}
    (isRead : URL.readSearch url base offset = some reading) :
    authorityPart reading.url = authorityPart url ∧ reading.url.hash = url.hash := by
  unfold URL.readSearch at isRead
  split at isRead
  · cases isRead
    exact ⟨rfl, rfl⟩
  · obtain ⟨n, _, isRead⟩ := Option.bind_eq_some_iff.mp isRead
    cases isRead
    exact ⟨rfl, rfl⟩

theorem readHash_frame {first second : URL.Reading} {base : Bytes} {offset : Nat}
    (isRead : URL.readHash first base offset = some second) :
    authorityPart second.url = authorityPart first.url := by
  unfold URL.readHash at isRead
  split at isRead
  · cases isRead
    rfl
  · obtain ⟨n, _, isRead⟩ := Option.bind_eq_some_iff.mp isRead
    cases isRead
    rfl

theorem setPathname_frame (reading : URL.Reading) (base : Bytes) (offset : Nat) :
    authorityPart (URL.setPathname reading base offset) = authorityPart reading.url ∧
      (URL.setPathname reading base offset).search = reading.url.search ∧
      (URL.setPathname reading base offset).hash = reading.url.hash := by
  unfold URL.setPathname
  dsimp only
  split
  · exact ⟨rfl, rfl, rfl⟩
  · exact ⟨rfl, rfl, rfl⟩

/-- What is read behind the host leaves what was read before. -/
theorem behind_frame {url url' : URL} {base : Bytes} {offset : Nat}
    (isRead : url.behind base offset = some url') : authorityPart url' = authorityPart url := by
  unfold URL.behind at isRead
  dsimp only at isRead
  split at isRead
  · cases isRead
    rfl
  · obtain ⟨first, isFirst, isRead⟩ := Option.bind_eq_some_iff.mp isRead
    obtain ⟨second, isSecond, isRead⟩ := Option.bind_eq_some_iff.mp isRead
    cases isRead
    refine ((setPathname_frame second base offset).1.trans (readHash_frame isSecond)).trans
      ((readSearch_frame isFirst).1.trans ?_)
    split
    · rfl
    · rfl

theorem mergeSlashes_suffix (path : Bytes) : URL.mergeSlashes path <:+ path := by
  induction path using URL.mergeSlashes.induct with
  | case1 c d rest both ih =>
      rw [URL.mergeSlashes, if_pos both]
      exact ih.trans (List.suffix_cons c _)
  | case2 c d rest other =>
      have stays : URL.mergeSlashes (c :: d :: rest) = c :: d :: rest := by
        rw [URL.mergeSlashes, if_neg other]
      exact ⟨[], stays⟩
  | case3 short isShort =>
      have stays : URL.mergeSlashes short = short := by
        match short with
        | [] => rfl
        | [c] => rfl
        | c :: d :: rest => exact (isShort c d rest rfl).elim
      exact ⟨[], stays⟩

theorem behind_read (small : u.text.length ≤ u32Max) (noMark : ¬ u.MarkInFragment) :
    ∃ url, u.expectedFront.behind u.text u.pathOffset = some url ∧
      authorityPart url = authorityPart u.expectedFront ∧ url.search = u.search ∧
      url.hash = u.hash ∧ url.pathname <:+ u.path ++ u.search := by
  have within : ¬ u.pathOffset > u.text.length := by
    rw [u.length_text]
    omega
  have start : (if u.tail.length > 1 ∧ u.tail.head? = some slash then
      { u.expectedFront with
        origin := u.text.take u.pathOffset, path := u.tail, pathname := u.tail }
      else { u.expectedFront with origin := u.text.take u.pathOffset }) =
        { u.expectedFront with
          origin := u.text.take u.pathOffset, path := u.tail, pathname := u.tail } := by
    split
    · rfl
    · next short =>
      have isShort : u.tail = [slash] := by
        rw [tail_cons] at short ⊢
        cases isRest : u.pathRest ++ (u.search ++ u.hash) with
        | nil => rfl
        | cons c rest =>
            rw [isRest] at short
            exact absurd ⟨by simp, rfl⟩ short
      rw [isShort]
      rfl
  obtain ⟨first, second, isFirst, isSecond, isSearch, isHash, isPathname⟩ :=
    @reading_text u small noMark { u.expectedFront with
      origin := u.text.take u.pathOffset, path := u.tail, pathname := u.tail } rfl rfl rfl
  have isRead : ∃ url, u.expectedFront.behind u.text u.pathOffset = some url ∧
      url.search = u.search ∧ url.hash = u.hash ∧
      url.pathname = URL.mergeSlashes (u.path ++ u.search) := by
    unfold URL.behind
    dsimp only
    rw [if_neg within, u.drop_pathOffset, start, isFirst, Option.bind_eq_bind, Option.bind_some,
      isSecond, Option.bind_some, isPathname]
    have frame := setPathname_frame second u.text u.pathOffset
    refine ⟨_, rfl, frame.2.1.trans isSearch, frame.2.2.trans isHash, ?_⟩
    dsimp only
    rw [if_neg]
    exact List.cons_ne_nil _ _
  obtain ⟨url, isRead, sameSearch, sameHash, merged⟩ := isRead
  refine ⟨url, isRead, behind_frame isRead, sameSearch, sameHash, ?_⟩
  rw [merged]
  exact mergeSlashes_suffix _

theorem behind_marked (small : u.text.length ≤ u32Max) (mark : u.MarkInFragment) {url url' : URL}
    (isRead : url.behind u.text u.pathOffset = some url') : url'.search ≠ [] := by
  have within : ¬ u.pathOffset > u.text.length := by
    rw [u.length_text]
    omega
  unfold URL.behind at isRead
  dsimp only at isRead
  rw [if_neg within] at isRead
  obtain ⟨first, isFirst, isRead⟩ := Option.bind_eq_some_iff.mp isRead
  obtain ⟨second, isSecond, isRead⟩ := Option.bind_eq_some_iff.mp isRead
  cases isRead
  dsimp only
  rw [(setPathname_frame second u.text u.pathOffset).2.1]
  exact u.reading_marked small mark isFirst isSecond

/-- A view that shows the parts of the text as they are, with nothing of the fragment in the path
name. -/
structure IsParsed (url : URL) : Prop where
  protocol : url.protocol = u.scheme
  username : url.username = u.credentials.elim [] Credentials.user
  password : url.password = (u.credentials.bind Credentials.password).getD []
  hostname : url.hostname = u.host.text
  port : url.port = u.port.getD []
  search : url.search = u.search
  hash : url.hash = u.hash
  pathname : url.pathname <:+ u.path ++ u.search

theorem parse_text : parse u.text = (do
    let (url, offset) ← URL.front { href := u.text } u.text u.letter
    url.behind u.text offset) := rfl

/-- A text of the form is parsed into its parts just where its user is not hidden and no question
mark in its fragment is taken for a query. -/
theorem parse_components (small : u.text.length < 2 ^ 32) :
    (∃ url, parse u.text = some url ∧ u.IsParsed url) ↔
      ¬ u.UserHidden ∧ ¬ u.MarkInFragment := by
  have fits : u.text.length ≤ u32Max := Nat.le_sub_one_of_lt small
  constructor
  · rintro ⟨url, isParsed, parts⟩
    rw [parse_text] at isParsed
    obtain ⟨⟨front, offset⟩, isFront, isBehind⟩ := Option.bind_eq_some_iff.mp isParsed
    have frame := behind_frame isBehind
    rw [authorityPart, authorityPart] at frame
    have notHidden : ¬ u.UserHidden := by
      intro hidden
      rcases u.front_hidden fits hidden isFront with lost | wrongHost
      · exact lost ((Prod.ext_iff.mp (Prod.ext_iff.mp frame).2).1.symm.trans parts.username)
      · exact wrongHost (((Prod.ext_iff.mp (Prod.ext_iff.mp (Prod.ext_iff.mp
          (Prod.ext_iff.mp frame).2).2).2).1).symm.trans parts.hostname)
    refine ⟨notHidden, fun mark => ?_⟩
    rw [u.front_read fits notHidden] at isFront
    cases isFront
    refine u.behind_marked fits mark isBehind (parts.search.trans ?_)
    rw [UrlText.search, mark.1, marked]
  · rintro ⟨notHidden, noMark⟩
    obtain ⟨url, isBehind, frame, isSearch, isHash, isPathname⟩ := u.behind_read fits noMark
    refine ⟨url, ?_, ?_⟩
    · rw [parse_text, u.front_read fits notHidden]
      exact isBehind
    · injection frame with protocol frame
      injection frame with username frame
      injection frame with password frame
      injection frame with hostname port
      exact ⟨protocol, username, password, hostname, port, isSearch, isHash, isPathname⟩

theorem forall_of_all {p : UInt8 → Prop} [DecidablePred p] {part : Bytes}
    (all : part.all (fun c => decide (p c)) = true) : ∀ c ∈ part, p c :=
  fun c member => of_decide_eq_true (List.all_eq_true.mp all c member)

/-- `http://user:pw@[::1]:80/a?q#f`. -/
def sampleUrl : UrlText where
  letter := 0x68
  schemeRest := [0x74, 0x74, 0x70]
  credentials := some
    { user := [0x75, 0x73, 0x65, 0x72]
      password := some [0x70, 0x77]
      userPlain := forall_of_all rfl
      passwordPlain := by
        rintro p ⟨⟩
        exact forall_of_all rfl }
  host := .ipv6 [colon, colon, 0x31] (forall_of_all rfl) (by decide)
  port := some [0x38, 0x30]
  pathRest := [0x61]
  query := some [0x71]
  fragment := some [0x66]
  isLetter := rfl
  schemeBytes := forall_of_all rfl
  portPlain := by
    rintro p ⟨⟩
    exact forall_of_all rfl
  pathFree := forall_of_all rfl
  queryFree := by
    rintro q ⟨⟩
    decide

theorem parse_components_full :
    sampleUrl.text.length < 2 ^ 32 ∧
      ((∃ url, parse sampleUrl.text = some url ∧ sampleUrl.IsParsed url) ↔
        ¬ sampleUrl.UserHidden ∧ ¬ sampleUrl.MarkInFragment) :=
  ⟨by decide, parse_components sampleUrl (by decide)⟩

/-- `http://user@host:80/`. -/
def userBeforePort : UrlText where
  letter := 0x68
  schemeRest := [0x74, 0x74, 0x70]
  credentials := some
    { user := [0x75, 0x73, 0x65, 0x72]
      password := none
      userPlain := forall_of_all rfl
      passwordPlain := nofun }
  host := .name [0x68, 0x6f, 0x73, 0x74] (forall_of_all rfl) (by decide)
  port := some [0x38, 0x30]
  pathRest := []
  query := none
  fragment := none
  isLetter := rfl
  schemeBytes := forall_of_all rfl
  portPlain := by
    rintro p ⟨⟩
    exact forall_of_all rfl
  pathFree := forall_of_all rfl
  queryFree := nofun

/-- The user in front of a port becomes part of the host name. -/
theorem user_before_port :
    (parse userBeforePort.text).map (fun url => (url.username, url.hostname)) =
        some ([], [0x75, 0x73, 0x65, 0x72, atSign, 0x68, 0x6f, 0x73, 0x74]) ∧
      ¬ ∃ url, parse userBeforePort.text = some url ∧ userBeforePort.IsParsed url := by
  have isRead : (parse userBeforePort.text).map (fun url => (url.username, url.hostname)) =
      some ([], [0x75, 0x73, 0x65, 0x72, atSign, 0x68, 0x6f, 0x73, 0x74]) := rfl
  refine ⟨isRead, ?_⟩
  rintro ⟨url, isParsed, parts⟩
  rw [isParsed, Option.map_some, Option.some.injEq, Prod.mk.injEq] at isRead
  exact absurd (isRead.1.symm.trans parts.username) (by decide)

end UrlText

end Bunx.Url
