import Pearl.IpAddress
import Pearl.Text.Quoted
import Pearl.Text.Ranges

/-!
The authority of a URI, which stands after two slashes: perhaps a user, a host, and perhaps a
port. An address of version 6 stands in brackets, and brackets stand nowhere else.
-/

namespace Pearl

/-- Why an authority is refused. -/
inductive UriError where
  | strayBracket
  | notAnAddress (host : String)
  | bracketedVersion4
  | malformedFutureAddress
  | disguisedDelimiter (authority : String)
  deriving DecidableEq, Repr

def UriError.message : UriError → String
  | strayBracket => "Invalid IPv6 URL"
  | notAnAddress host =>
    s!"{Text.quoteString host} does not appear to be an IPv4 or IPv6 address"
  | bracketedVersion4 => "An IPv4 address cannot be in brackets"
  | malformedFutureAddress => "IPvFuture address is invalid"
  | disguisedDelimiter authority =>
    s!"netloc '{authority}' contains invalid characters under NFKC normalization"

namespace Uri.Authority

open Text

/-- The code points whose compatibility decomposition holds one of the delimiters `/`, `?`, `#`,
`@` and `:`. -/
def disguiseRanges : List (Nat × Nat) :=
  [(0x2047, 0x2049), (0x2100, 0x2101), (0x2105, 0x2106), (0x2A74, 0x2A74), (0xFE13, 0xFE13),
   (0xFE16, 0xFE16), (0xFE55, 0xFE56), (0xFE5F, 0xFE5F), (0xFE6B, 0xFE6B), (0xFF03, 0xFF03),
   (0xFF0F, 0xFF0F), (0xFF1A, 0xFF1A), (0xFF1F, 0xFF20)]

/-- An address of a version to come: `v`, its number in hexadecimal digits, a point, and
anything. -/
def isFutureAddress (cs : List Char) : Bool :=
  match cs with
  | 'v' :: rest =>
    match splitFirst '.' rest with
    | (version, some address) => version ≠ [] && version.all isHexDigit && address ≠ []
    | (_, none) => false
  | _ => false

def checkAddress (host : List Char) : Except UriError Unit :=
  if host.head? = some 'v' then
    if isFutureAddress host then .ok () else .error .malformedFutureAddress
  else if IpAddress.isVersion4 host then .error .bracketedVersion4
  else if IpAddress.isVersion6 host then .ok ()
  else .error (.notAnAddress (String.ofList host))

/-- The host and the port, after the last at sign. -/
def hostAndPort (authority : List Char) : List Char :=
  (authority.reverse.takeWhile (· ≠ '@')).reverse

/-- Looks at a host in brackets. Nothing stands before the brackets, and nothing but a port after
them. Without brackets here, which are then in the name of the user, the host itself has to be an
address. -/
def checkBracketed (host : List Char) : Except UriError Unit :=
  match splitFirst '[' host with
  | (_, none) => checkAddress (splitFirst ':' host).1
  | (before, some bracketed) =>
    let (address, after) := splitFirst ']' bracketed
    let port := after.getD []
    if before ≠ [] || port ≠ [] && port.head? ≠ some ':' then .error .strayBracket
    else checkAddress address

/-- Looks at an authority: at its brackets, and then for characters that would be taken for
delimiters. -/
def check (authority : List Char) : Except UriError Unit := do
  if authority.contains '[' != authority.contains ']' then throw .strayBracket
  if authority.contains '[' then checkBracketed (hostAndPort authority)
  if authority.any (inRanges disguiseRanges) then
    throw (.disguisedDelimiter (String.ofList authority))

end Uri.Authority

end Pearl
